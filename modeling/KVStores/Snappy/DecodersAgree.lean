import KVStores.Snappy.Stream

/-!
# What the decoders accept

A decoder accepts exactly the data whose tags describe as many bytes as are announced, and what it writes is the string that they
describe. But a string is decoded only when `Varint::Parse32WithLimit` can read the announced length, and this function refuses
a fifth byte over 15, of which `ReadUncompressedLength` drops the high bits.
-/

namespace KVStores.Snappy

open List Option

variable {σ : Type} {W : Writer σ}

def Describes (s : Source) (out : Bytes) : Prop :=
  ∃ fuel d, decompressAllTags (plainWriter anything) fuel ⟨s, [], 0, false⟩ [] = some (d, out) ∧ d.eof = true

theorem tagLoop_more : ∀ {fuel : ℕ} {d : Decompressor} {w : σ} {p : Decompressor × σ} (k : ℕ), tagLoop W fuel d w = some p →
    tagLoop W (fuel + k) d w = some p := by
  intro fuel
  induction fuel with
  | zero => exact fun _ h => absurd h.symm (some_ne_none _)
  | succ fuel ih =>
    intro d w p k h
    rw [Nat.add_right_comm, tagLoop_succ]
    rw [tagLoop_succ] at h
    obtain ⟨q, hround, hq⟩ := bind_eq_some_iff.1 h
    rw [hround, bind_some]
    by_cases hgo : q.1 = false
    · rw [if_pos hgo] at hq ⊢
      exact hq
    · rw [if_neg hgo] at hq ⊢
      exact ih k hq

variable {fuel : ℕ}

theorem decompressAllTags_more {d : Decompressor} {w : σ} {p : Decompressor × σ} (k : ℕ) (h : decompressAllTags W fuel d w = some p) :
    decompressAllTags W (fuel + k) d w = some p := by
  rw [decompressAllTags_eq] at h ⊢
  obtain ⟨q, hrefill, hq⟩ := bind_eq_some_iff.1 h
  rw [hrefill, bind_some]
  by_cases hgo : q.1 = false
  · rw [if_pos hgo] at hq ⊢
    exact hq
  · rw [if_neg hgo] at hq ⊢
    exact tagLoop_more k hq

variable {s : Source} {out : Bytes}

theorem describes_unique {out' : Bytes} (h : Describes s out) (h' : Describes s out') : out = out' := by
  obtain ⟨fuel, d, hrun, -⟩ := h
  obtain ⟨fuel', d', hrun', -⟩ := h'
  have hmore := decompressAllTags_more fuel' hrun
  have hmore' := decompressAllTags_more fuel hrun'
  rw [Nat.add_comm] at hmore'
  exact (Prod.mk.inj (Option.some.inj (hmore.symm.trans hmore'))).2

section
variable {n : ℕ} {R : Bytes → σ → Prop} {reader s : Source} {w : σ} {w' : σ}

theorem accepted_run (hW : Implements n W R) (hR : R [] (W.setExpectedLength n w)) (hread : readUncompressedLength reader = some (n, s))
    (h : internalUncompress W fuel reader w = some (true, w')) :
    ∃ d out, decompressAllTags W fuel ⟨s, [], 0, false⟩ (W.setExpectedLength n w) = some (d, w') ∧
      decompressAllTags (plainWriter anything) fuel ⟨s, [], 0, false⟩ [] = some (d, out) ∧ d.eof = true ∧ out.length = n ∧ R out w' := by
  rw [internalUncompress, hread] at h
  obtain ⟨⟨d, w''⟩, hrun, hresult⟩ := map_eq_some_iff.1 h
  obtain ⟨hok, rfl⟩ := Prod.mk.inj hresult
  obtain ⟨heof, hcheck⟩ := (Bool.and_eq_true _ _).mp hok
  have heof₀ : (⟨s, [], 0, false⟩ : Decompressor).eof = false := rfl
  have hagrees := decompressAllTags_agrees hW fuel hR heof₀
  rw [hrun] at hagrees
  rcases hplain : decompressAllTags (plainWriter (upTo n)) fuel ⟨s, [], 0, false⟩ [] with _ | ⟨d', out⟩
  · rw [hplain] at hagrees
    exact hagrees.elim
  rw [hplain] at hagrees
  obtain ⟨hd, hsame⟩ := hagrees
  have hd' : d' = d := hd
  subst hd'
  have hR' := hsame heof
  have hcut := decompressAllTags_cut n fuel [] heof₀
  rcases hcut with heq | ⟨hno, -⟩
  · refine ⟨d', out, hrun, heq.symm.trans hplain, heof, ?_, hR'⟩
    rw [hW.check hR'] at hcheck
    exact of_decide_eq_true hcheck
  · exact absurd ((hno _ hplain).symm.trans heof) Bool.false_ne_true

theorem accepted_describes (hW : Implements n W R) (hR : R [] (W.setExpectedLength n w)) (hread : readUncompressedLength reader = some (n, s))
    (h : internalUncompress W fuel reader w = some (true, w')) : ∃ out, Describes s out ∧ out.length = n ∧ R out w' := by
  obtain ⟨d, out, -, hplain, heof, hlen, hR'⟩ := accepted_run hW hR hread h
  exact ⟨out, ⟨fuel, d, hplain, heof⟩, hlen, hR'⟩

theorem describes_accepted (hW : Implements n W R) (hR : R [] (W.setExpectedLength n w)) (hread : readUncompressedLength reader = some (n, s))
    (h : Describes s out) (hlen : out.length = n) : ∃ fuel w', internalUncompress W fuel reader w = some (true, w') ∧ R out w' := by
  obtain ⟨fuel, d, hrun, heof⟩ := h
  have heof₀ : (⟨s, [], 0, false⟩ : Decompressor).eof = false := rfl
  have hagrees := decompressAllTags_agrees hW fuel hR heof₀
  have hcut := decompressAllTags_cut n fuel [] heof₀
  have hplain : decompressAllTags (plainWriter (upTo n)) fuel ⟨s, [], 0, false⟩ [] = some (d, out) := by
    rcases hcut with heq | ⟨-, hlong⟩
    · exact heq.trans hrun
    · exact absurd (hlong _ hrun) (by rw [hlen]; exact Nat.lt_irrefl n)
  rw [hplain] at hagrees
  rcases hwriter : decompressAllTags W fuel ⟨s, [], 0, false⟩ (W.setExpectedLength n w) with _ | ⟨d', w'⟩
  · rw [hwriter] at hagrees
    exact hagrees.elim
  rw [hwriter] at hagrees
  obtain ⟨hd, hsame⟩ := hagrees
  have hd' : d = d' := hd
  subst hd'
  have hR' := hsame heof
  refine ⟨fuel, w', ?_, hR'⟩
  rw [internalUncompress, hread]
  dsimp only
  rw [hwriter, map_some, hW.check hR', decide_eq_true hlen, heof]
  rfl

theorem implements_returns (hW : Implements n W R) (hR : R [] (W.setExpectedLength n w)) (hread : readUncompressedLength reader = some (n, s))
    (hfits : (⟨s, [], 0, false⟩ : Decompressor).Fits) : ∃ fuel p, internalUncompress W fuel reader w = some p := by
  have hsafe : Safe (plainWriter (upTo n)) fun _ => True := by
    refine ⟨fun ip _ => ⟨_, rfl, trivial⟩, fun ip k _ => ⟨_, rfl, trivial, fun h => absurd h Bool.false_ne_true⟩, fun {out offset len} _ _ _ => ?_⟩
    by_cases hbad : offset = 0 ∨ out.length < offset
    · exact ⟨_, if_pos hbad, trivial⟩
    · exact ⟨_, if_neg hbad, trivial⟩
  have heof₀ : (⟨s, [], 0, false⟩ : Decompressor).eof = false := rfl
  obtain ⟨fuel, p, hplain, -⟩ := @decompressAllTags_returns Bytes _ _ hsafe _ [] hfits trivial
  have hagrees := decompressAllTags_agrees hW fuel hR heof₀
  rw [hplain] at hagrees
  rcases hwriter : decompressAllTags W fuel ⟨s, [], 0, false⟩ (W.setExpectedLength n w) with _ | q
  · rw [hwriter] at hagrees
    exact hagrees.elim
  · refine ⟨fuel, (q.1.eof && W.checkLength q.2, q.2), ?_⟩
    rw [internalUncompress, hread]
    dsimp only
    rw [hwriter, map_some]

end

def leftover (t : Bytes) : Source := if t = [] then [] else [t]

def Shows (s : Source) (t : Bytes) : Prop := s = [t] ∨ s = leftover t

theorem peek_leftover (t : Bytes) : peek (leftover t) = t := by
  rw [leftover]
  by_cases ht : t = []
  · rw [if_pos ht, ht]
    rfl
  · rw [if_neg ht]
    rfl

variable {t : Bytes}

theorem Shows.peek (h : Shows s t) : peek s = t := by
  rcases h with rfl | rfl
  · rfl
  · exact peek_leftover t

theorem Shows.skip {c : UInt8} (h : Shows s (c :: t)) : skip 1 s = leftover t := by
  have hs : s = [c :: t] := h.elim id fun h => h
  rw [hs, Snappy.skip, leftover]
  cases t with
  | nil => rfl
  | cons c' t =>
    exact if_pos (Nat.succ_lt_succ (Nat.succ_pos _))

/-- The lines of a reader of varints, with the bound of the last one. -/
@[grind =] def lines (last : ℕ) : ℕ → ℕ → List (ℕ × ℕ)
  | 0, _ => []
  | 1, shift => [(shift, last)]
  | k + 2, shift => (shift, 128) :: lines last (k + 1) (shift + 7)

/-- **`ReadUncompressedLength`** has the bound 128 in its last line too. -/
theorem readLengthLoop_eq : ∀ {k shift result : ℕ} {s : Source} {t : Bytes}, Shows s t → shift + 7 * k = 35 →
    (readLengthLoop (k + 1) shift result s).map Prod.fst = parse32Loop (lines 128 k shift) result t ∧
      ∀ n s', readLengthLoop (k + 1) shift result s = some (n, s') → n < 2 ^ 32 ∧ ∃ j, 0 < j ∧ s' = leftover (t.drop j) := by
  intro k
  induction k with
  | zero =>
    intro shift result s t _ hshift
    rw [readLengthLoop, if_pos (by omega)]
    exact ⟨rfl, fun n s' h => absurd h.symm (some_ne_none _)⟩
  | succ k ih =>
    intro shift result s t hs hshift
    have hline : lines 128 (k + 1) shift = (shift, 128) :: lines 128 k (shift + 7) := by
      cases k with
      | zero => rfl
      | succ k => rfl
    rw [readLengthLoop, if_neg (by omega), hs.peek, hline]
    cases t with
    | nil => exact ⟨rfl, fun n s' h => absurd h.symm (some_ne_none _)⟩
    | cons c t =>
      dsimp only
      rw [parse32Loop]
      by_cases hlast : c < 128
      · have hnat : c.toNat < 128 := UInt8.lt_iff_toNat_lt.1 hlast
        rw [if_pos hlast, if_pos hnat]
        refine ⟨rfl, fun n s' h => ?_⟩
        obtain ⟨rfl, rfl⟩ := Prod.mk.inj (Option.some.inj h)
        exact ⟨Nat.mod_lt _ (by decide), 1, Nat.one_pos, hs.skip⟩
      · have hnat : ¬ c.toNat < 128 := fun h => hlast (UInt8.lt_iff_toNat_lt.2 h)
        rw [if_neg hlast, if_neg hnat]
        obtain ⟨heq, hsome⟩ := @ih (shift + 7) ((result + c.toNat % 128 * 2 ^ shift) % 2 ^ 32) _ t (Or.inr hs.skip) (by omega)
        refine ⟨heq, fun n s' h => ?_⟩
        obtain ⟨hn, j, -, hs'⟩ := hsome n s' h
        exact ⟨hn, j + 1, Nat.succ_pos j, hs'⟩

/-- `k - 1` bytes after which more is to come, and one that is over 15. -/
@[grind =] def Overlong : ℕ → Bytes → Prop
  | _, [] => False
  | 0, _ => False
  | 1, b :: _ => 16 ≤ b.toNat ∧ b.toNat < 128
  | k + 2, b :: t => 128 ≤ b.toNat ∧ Overlong (k + 1) t

/-- **How the two readers differ.** -/
theorem parse32Loop_lines : ∀ {k shift result : ℕ} {t : Bytes},
    (Overlong k t → parse32Loop (lines 16 k shift) result t = none ∧ ∃ n, parse32Loop (lines 128 k shift) result t = some n) ∧
      (¬ Overlong k t → parse32Loop (lines 16 k shift) result t = parse32Loop (lines 128 k shift) result t) := by
  intro k
  induction k with
  | zero =>
    intro shift result t
    refine ⟨fun h => ?_, fun _ => rfl⟩
    cases t with
    | nil => exact h.elim
    | cons b t => exact h.elim
  | succ k ih =>
    intro shift result t
    cases t with
    | nil =>
      cases k with
      | zero => exact ⟨fun h => h.elim, fun _ => rfl⟩
      | succ k => exact ⟨fun h => h.elim, fun _ => rfl⟩
    | cons b t =>
      cases k with
      | zero =>
        have hline : ∀ last, parse32Loop (lines last 1 shift) result (b :: t) =
            if b.toNat < last then some ((result + b.toNat % 128 * 2 ^ shift) % 2 ^ 32) else none := fun _ => rfl
        rw [hline, hline]
        refine ⟨fun h => ?_, fun h => ?_⟩
        · rw [if_neg (Nat.not_lt.2 h.1), if_pos h.2]
          exact ⟨rfl, _, rfl⟩
        · by_cases hsmall : b.toNat < 16
          · rw [if_pos hsmall, if_pos (by omega)]
          · rw [if_neg hsmall, if_neg fun hlt => h ⟨Nat.not_lt.1 hsmall, hlt⟩]
      | succ k =>
        rw [lines, lines, parse32Loop, parse32Loop]
        by_cases hlast : b.toNat < 128
        · rw [if_pos hlast, if_pos hlast]
          exact ⟨fun h => absurd hlast (Nat.not_lt.2 h.1), fun _ => rfl⟩
        · rw [if_neg hlast, if_neg hlast]
          obtain ⟨hlong, hshort⟩ := @ih (shift + 7) ((result + b.toNat % 128 * 2 ^ shift) % 2 ^ 32) t
          exact ⟨fun h => hlong h.2, fun h => hshort fun h' => h ⟨Nat.not_lt.1 hlast, h'⟩⟩

def announcedLength (data : Bytes) : ℕ := ((readUncompressedLength [data]).map Prod.fst).getD 0

theorem readUncompressedLength_spec (data : Bytes) : (readUncompressedLength [data]).map Prod.fst = parse32Loop (lines 128 5 0) 0 data ∧
    ∀ n s, readUncompressedLength [data] = some (n, s) → n < 2 ^ 32 ∧ ∃ j, 0 < j ∧ s = leftover (data.drop j) :=
  readLengthLoop_eq (Or.inl rfl) rfl

/-- **`Varint::Parse32WithLimit`** reads the same length, unless it is over-long. -/
theorem parse32WithLimit_spec (data : Bytes) :
    (Overlong 5 data → parse32WithLimit data = none ∧ ∃ n s, readUncompressedLength [data] = some (n, s)) ∧
      (¬ Overlong 5 data → parse32WithLimit data = (readUncompressedLength [data]).map Prod.fst) := by
  obtain ⟨hlong, hshort⟩ := @parse32Loop_lines 5 0 0 data
  rw [(readUncompressedLength_spec data).1]
  refine ⟨fun h => ⟨(hlong h).1, ?_⟩, hshort⟩
  obtain ⟨n, hn⟩ := (hlong h).2
  rw [← (readUncompressedLength_spec data).1] at hn
  obtain ⟨⟨n', s⟩, hread, -⟩ := map_eq_some_iff.1 hn
  exact ⟨n', s, hread⟩

/-- The tags behind the announced length describe as many bytes. -/
def WellFormed (data : Bytes) : Prop := ∃ n s out, readUncompressedLength [data] = some (n, s) ∧ Describes s out ∧ out.length = n

def IsValid (data : Bytes) : Prop := ∃ fuel, isValidCompressedBuffer fuel data = some true

/-- `RawUncompress` accepts, and leaves this in the array. -/
def RawAccepts (data dst result : Bytes) : Prop := ∃ fuel, rawUncompress fuel data dst = some (true, result)

def StringAccepts (maxSize : ℕ) (data s result : Bytes) : Prop := ∃ fuel, uncompress maxSize fuel data s = some (true, result)

def IOVecAccepts (data : Bytes) (iov result : List Bytes) : Prop := ∃ fuel, rawUncompressToIOVec fuel data iov = some (true, result)

/-- **The decoders agree**: on what they accept, and on what it is. Below 2^32 bytes each of them returns. -/
structure DecodersAgree (maxSize : ℕ) (data : Bytes) : Prop where
  flat : ∀ dst, dst.length = announcedLength data → (IsValid data ↔ ∃ r, RawAccepts data dst r)
  string : announcedLength data ≤ maxSize → ∀ s, IsValid data ↔ ∃ r, StringAccepts maxSize data s r
  buffers : ∀ iov, iov ≠ [] → announcedLength data ≤ iov.flatten.length → (IsValid data ↔ ∃ r, IOVecAccepts data iov r)
  same : ∃ out, (∀ dst r, dst.length = announcedLength data → RawAccepts data dst r → r = out) ∧
    (∀ s r, StringAccepts maxSize data s r → r = out) ∧
    ∀ iov r, iov ≠ [] → announcedLength data ≤ iov.flatten.length → IOVecAccepts data iov r → r.flatten.take (announcedLength data) = out
  short : ∀ iov r, iov ≠ [] → iov.flatten.length < announcedLength data → ¬ IOVecAccepts data iov r
  returns : data.length < 2 ^ 32 → (∃ fuel r, isValidCompressedBuffer fuel data = some r) ∧
    (∀ dst, dst.length = announcedLength data → ∃ fuel r, rawUncompress fuel data dst = some r) ∧
    (∀ s, ∃ fuel r, uncompress maxSize fuel data s = some r) ∧ ∀ iov, iov ≠ [] → ∃ fuel r, rawUncompressToIOVec fuel data iov = some r

section
variable {maxSize n : ℕ} {data : Bytes} {s : Source}

theorem announcedLength_eq (hread : readUncompressedLength [data] = some (n, s)) : announcedLength data = n := by
  rw [announcedLength, hread]
  rfl

theorem array_ready {dst : Bytes} (hdst : dst.length = n) : ArrayWriter.Has n [] (arrayWriter.setExpectedLength n ⟨dst, 0, 0⟩) :=
  ⟨hdst, Nat.zero_add n, rfl, Nat.zero_le n, rfl⟩

variable {iov : List Bytes}

theorem buffers_ready (hiov : iov ≠ []) :
    IOVecWriter.Has n (iov.map List.length) [] (iovecWriter.setExpectedLength n ⟨iov, 0, 0, 0, 2 ^ 64 - 1⟩) := by
  obtain ⟨e, es, rfl⟩ := exists_cons_of_ne_nil hiov
  exact ⟨⟨rfl, rfl, ⟨e.length, rfl, Nat.zero_le _⟩, rfl, Nat.zero_le n⟩, rfl⟩

theorem isValid_iff (hread : readUncompressedLength [data] = some (n, s)) : IsValid data ↔ ∃ out, Describes s out ∧ out.length = n := by
  have hn := ((readUncompressedLength_spec data).2 n s hread).1
  have hready : Validator.Counts n [] (validator.setExpectedLength n ⟨0, 0⟩) := ⟨rfl, rfl, Nat.zero_le n⟩
  constructor
  · rintro ⟨fuel, h⟩
    obtain ⟨⟨b, w'⟩, hrun, rfl⟩ := map_eq_some_iff.1 h
    obtain ⟨out, hout, hlen, -⟩ := accepted_describes (validator_implements hn) hready hread hrun
    exact ⟨out, hout, hlen⟩
  · rintro ⟨out, hout, hlen⟩
    obtain ⟨fuel, w', hrun, -⟩ := describes_accepted (validator_implements hn) hready hread hout hlen
    exact ⟨fuel, by rw [isValidCompressedBuffer, hrun]; rfl⟩

theorem ArrayWriter.Has.full {w : ArrayWriter} (h : w.Has n out) (hlen : out.length = n) : w.mem = out := by
  obtain ⟨hmem, -, -, -, htake⟩ := h
  rwa [hlen, take_of_length_le (Nat.le_of_eq hmem)] at htake

theorem rawAccepts_iff (hread : readUncompressedLength [data] = some (n, s)) {dst r : Bytes} (hdst : dst.length = n) :
    RawAccepts data dst r ↔ Describes s r ∧ r.length = n := by
  have hn := ((readUncompressedLength_spec data).2 n s hread).1
  constructor
  · rintro ⟨fuel, h⟩
    obtain ⟨⟨b, w'⟩, hrun, hresult⟩ := map_eq_some_iff.1 h
    obtain ⟨rfl, rfl⟩ := Prod.mk.inj hresult
    obtain ⟨out, hout, hlen, hw'⟩ := accepted_describes (arrayWriter_implements hn) (array_ready hdst) hread hrun
    rw [hw'.full hlen]
    exact ⟨hout, hlen⟩
  · rintro ⟨hout, hlen⟩
    obtain ⟨fuel, w', hrun, hw'⟩ := describes_accepted (arrayWriter_implements hn) (array_ready hdst) hread hout hlen
    exact ⟨fuel, by rw [rawUncompress, hrun, ← hw'.full hlen]; rfl⟩

theorem stringAccepts_iff (hread : readUncompressedLength [data] = some (n, s)) {old r : Bytes} :
    StringAccepts maxSize data old r ↔ ¬ Overlong 5 data ∧ n ≤ maxSize ∧ Describes s r ∧ r.length = n := by
  have hresize : (resize old n).length = n := by
    rw [resize, length_append, length_take, length_replicate]
    omega
  by_cases hlong : Overlong 5 data
  · refine iff_of_false (fun ⟨fuel, h⟩ => ?_) fun h => h.1 hlong
    rw [uncompress, getUncompressedLength, ((parse32WithLimit_spec data).1 hlong).1] at h
    exact absurd (Prod.mk.inj (Option.some.inj h)).1 Bool.false_ne_true
  have hparse : getUncompressedLength data = some n := by
    rw [getUncompressedLength, (parse32WithLimit_spec data).2 hlong, hread]
    rfl
  by_cases hmax : maxSize < n
  · refine iff_of_false (fun ⟨fuel, h⟩ => ?_) fun h => absurd hmax (Nat.not_lt.2 h.2.1)
    rw [uncompress, hparse] at h
    dsimp only at h
    rw [if_pos hmax] at h
    exact absurd (Prod.mk.inj (Option.some.inj h)).1 Bool.false_ne_true
  · have hsame : StringAccepts maxSize data old r ↔ RawAccepts data (resize old n) r := by
      refine exists_congr fun fuel => ?_
      rw [uncompress, hparse]
      dsimp only
      rw [if_neg hmax]
    rw [hsame, rawAccepts_iff hread hresize]
    exact ⟨fun h => ⟨hlong, Nat.not_lt.1 hmax, h⟩, fun h => h.2.2⟩

variable {r : List Bytes}

theorem iovecAccepts_describes (hread : readUncompressedLength [data] = some (n, s)) (hiov : iov ≠ [])
    (hroom : n ≤ iov.flatten.length) (h : IOVecAccepts data iov r) : Describes s (r.flatten.take n) := by
  obtain ⟨fuel, h⟩ := h
  obtain ⟨⟨b, w'⟩, hrun, hresult⟩ := map_eq_some_iff.1 h
  obtain ⟨rfl, rfl⟩ := Prod.mk.inj hresult
  rw [List.length_flatten] at hroom
  obtain ⟨out, hout, hlen, hw', hsame⟩ := accepted_describes (iovecWriter_implements hroom) (buffers_ready hiov) hread hrun
  have htotal : w'.totalWritten = n := by rw [← hw'.length_out, hsame, hlen]
  have hout' : Describes s w'.out := hsame.symm ▸ hout
  rw [← htotal]
  exact hout'

theorem iovecAccepts_iff (hread : readUncompressedLength [data] = some (n, s)) (hiov : iov ≠ []) (hroom : n ≤ iov.flatten.length) :
    (∃ r, IOVecAccepts data iov r) ↔ ∃ out, Describes s out ∧ out.length = n := by
  have hroom' := hroom
  rw [List.length_flatten] at hroom'
  constructor
  · rintro ⟨r, fuel, h⟩
    obtain ⟨⟨b, w'⟩, hrun, hresult⟩ := map_eq_some_iff.1 h
    obtain ⟨rfl, rfl⟩ := Prod.mk.inj hresult
    obtain ⟨out, hout, hlen, -⟩ := accepted_describes (iovecWriter_implements hroom') (buffers_ready hiov) hread hrun
    exact ⟨out, hout, hlen⟩
  · rintro ⟨out, hout, hlen⟩
    obtain ⟨fuel, w', hrun, -⟩ := describes_accepted (iovecWriter_implements hroom') (buffers_ready hiov) hread hout hlen
    exact ⟨w'.iov, fuel, by rw [rawUncompressToIOVec, hrun]; rfl⟩

theorem iovecWriter_keeps (limit : ℕ) (lens : List ℕ) : Keeps iovecWriter (IOVecWriter.Ok limit lens) where
  append := by
    intro w ip p hw h
    obtain ⟨b, w', happend, hw', -⟩ := IOVecWriter.append_spec hw ip
    obtain rfl := Option.some.inj (happend.symm.trans h)
    exact hw'
  fast := by
    intro w ip n p hw h
    obtain ⟨b, w', hfast, hw', -⟩ := IOVecWriter.fast_spec hw ip n
    obtain rfl := Option.some.inj (hfast.symm.trans h)
    exact hw'
  self := by
    intro w offset len p hw h
    obtain ⟨b, w', hself, hw', -⟩ := IOVecWriter.appendFromSelf_spec hw offset len
    obtain rfl := Option.some.inj (hself.symm.trans h)
    exact hw'

theorem iovecWriter_safe (limit : ℕ) (lens : List ℕ) : Safe iovecWriter (IOVecWriter.Ok limit lens) where
  append := by
    intro w ip hw
    obtain ⟨b, w', happend, hw', -⟩ := IOVecWriter.append_spec hw ip
    exact ⟨(b, w'), happend, hw'⟩
  fast := by
    intro w ip n hw
    obtain ⟨b, w', hfast, hw', -, hyes⟩ := IOVecWriter.fast_spec hw ip n
    exact ⟨(b, w'), hfast, hw', fun hb => (hyes hb).2.1⟩
  self := by
    intro w offset len hw _ _
    obtain ⟨b, w', hself, hw', -⟩ := IOVecWriter.appendFromSelf_spec hw offset len
    exact ⟨(b, w'), hself, hw'⟩

/-- **Buffers that are too short** are never enough. -/
theorem iovec_short (hread : readUncompressedLength [data] = some (n, s)) (hiov : iov ≠ []) (hroom : iov.flatten.length < n) :
    ¬ IOVecAccepts data iov r := by
  rintro ⟨fuel, h⟩
  obtain ⟨⟨b, w'⟩, hrun, hresult⟩ := map_eq_some_iff.1 h
  obtain ⟨rfl, -⟩ := Prod.mk.inj hresult
  rw [internalUncompress, hread] at hrun
  obtain ⟨⟨d, w''⟩, htags, hresult⟩ := map_eq_some_iff.1 hrun
  obtain ⟨hok, rfl⟩ := Prod.mk.inj hresult
  obtain ⟨-, hcheck⟩ := (Bool.and_eq_true _ _).mp hok
  have hw : w''.Ok n (iov.map List.length) := decompressAllTags_keeps (iovecWriter_keeps n _) (buffers_ready hiov).1 htags
  have htotal : w''.totalWritten = w''.outputLimit := of_decide_eq_true hcheck
  have hsum := hw.total_le_sum
  rw [htotal, hw.outputLimit, ← List.length_flatten] at hsum
  omega

theorem leftover_fits {t : Bytes} (ht : t.length < 2 ^ 32) : (⟨leftover t, [], 0, false⟩ : Decompressor).Fits := by
  rw [leftover]
  by_cases hnil : t = []
  · rw [if_pos hnil]
    exact ⟨not_mem_nil, fun f hf => absurd hf not_mem_nil, Nat.two_pow_pos 32⟩
  · rw [if_neg hnil]
    refine ⟨fun hmem => hnil (mem_singleton.1 hmem).symm, fun f hf => ?_, Nat.two_pow_pos 32⟩
    rwa [mem_singleton.mp hf]

/-- **Below 2^32 bytes the decoders return.** -/
theorem decoders_return (maxSize : ℕ) {data : Bytes} (hsmall : data.length < 2 ^ 32) : (∃ fuel r, isValidCompressedBuffer fuel data = some r) ∧
    (∀ dst, dst.length = announcedLength data → ∃ fuel r, rawUncompress fuel data dst = some r) ∧
    (∀ s, ∃ fuel r, uncompress maxSize fuel data s = some r) ∧ ∀ iov, iov ≠ [] → ∃ fuel r, rawUncompressToIOVec fuel data iov = some r := by
  rcases hread : readUncompressedLength [data] with _ | ⟨n, s⟩
  · have hfail : ∀ {τ : Type} (V : Writer τ) (w : τ), internalUncompress V 0 [data] w = some (false, w) := by
      intro τ V w
      rw [internalUncompress, hread]
    have hparse : getUncompressedLength data = none := by
      by_cases hlong : Overlong 5 data
      · exact ((parse32WithLimit_spec data).1 hlong).1
      · rw [getUncompressedLength, (parse32WithLimit_spec data).2 hlong, hread]
        rfl
    refine ⟨⟨0, false, ?_⟩, fun dst _ => ⟨0, (false, dst), ?_⟩, fun old => ⟨0, (false, old), ?_⟩, fun iov _ => ⟨0, (false, iov), ?_⟩⟩
    · rw [isValidCompressedBuffer, hfail]
      rfl
    · rw [rawUncompress, hfail]
      rfl
    · rw [uncompress, hparse]
    · rw [rawUncompressToIOVec, hfail]
      rfl
  obtain ⟨hn, j, -, rfl⟩ := (readUncompressedLength_spec data).2 n s hread
  have hfits := @leftover_fits (data.drop j) (by rw [length_drop]; omega)
  have hraw : ∀ {dst : Bytes}, dst.length = n → ∃ fuel r, rawUncompress fuel data dst = some r := by
    intro dst hdst
    obtain ⟨fuel, p, hrun⟩ := implements_returns (arrayWriter_implements hn) (array_ready hdst) hread hfits
    exact ⟨fuel, (p.1, p.2.mem), by rw [rawUncompress, hrun]; rfl⟩
  rw [announcedLength_eq hread]
  refine ⟨?_, fun dst hdst => hraw hdst, fun old => ?_, fun iov hiov => ?_⟩
  · have hready : Validator.Counts n [] (validator.setExpectedLength n ⟨0, 0⟩) := ⟨rfl, rfl, Nat.zero_le n⟩
    obtain ⟨fuel, p, hrun⟩ := implements_returns (validator_implements hn) hready hread hfits
    exact ⟨fuel, p.1, by rw [isValidCompressedBuffer, hrun]; rfl⟩
  · by_cases hlong : Overlong 5 data
    · exact ⟨0, (false, old), by rw [uncompress, getUncompressedLength, ((parse32WithLimit_spec data).1 hlong).1]⟩
    have hparse : getUncompressedLength data = some n := by
      rw [getUncompressedLength, (parse32WithLimit_spec data).2 hlong, hread]
      rfl
    by_cases hmax : maxSize < n
    · refine ⟨0, (false, old), ?_⟩
      rw [uncompress, hparse]
      exact if_pos hmax
    · have hresize : (resize old n).length = n := by
        rw [resize, length_append, length_take, length_replicate]
        omega
      obtain ⟨fuel, r, hrun⟩ := hraw hresize
      refine ⟨fuel, r, ?_⟩
      rw [uncompress, hparse, ← hrun]
      exact if_neg hmax
  · obtain ⟨fuel, p, hrun, -⟩ := decompressAllTags_returns (iovecWriter_safe n (iov.map List.length)) hfits (buffers_ready hiov).1
    refine ⟨fuel, (p.1.eof && iovecWriter.checkLength p.2, p.2.iov), ?_⟩
    rw [rawUncompressToIOVec, internalUncompress, hread]
    dsimp only
    rw [hrun]
    rfl

/-- **When the decoders agree**: exactly when the announced length is not over-long, or the data is refused for another reason. -/
theorem decodersAgree_iff (maxSize : ℕ) (data : Bytes) :
    DecodersAgree maxSize data ↔ ¬ (Overlong 5 data ∧ WellFormed data ∧ announcedLength data ≤ maxSize) := by
  constructor
  · rintro hagree ⟨hlong, ⟨n, s, out, hread, hout, hlen⟩, hmax⟩
    obtain ⟨r, hr⟩ := (hagree.string hmax []).1 ((isValid_iff hread).2 ⟨out, hout, hlen⟩)
    exact ((stringAccepts_iff hread).1 hr).1 hlong
  intro hcond
  rcases hread : readUncompressedLength [data] with _ | ⟨n, s⟩
  · -- no length is announced
    have hfail : ∀ {τ : Type} (V : Writer τ) (fuel : ℕ) (w : τ), internalUncompress V fuel [data] w = some (false, w) := by
      intro τ V fuel w
      rw [internalUncompress, hread]
    have hvalid : ¬ IsValid data := by
      rintro ⟨fuel, h⟩
      rw [isValidCompressedBuffer, hfail] at h
      exact absurd (Option.some.inj h) Bool.false_ne_true
    have hraw : ∀ dst r, ¬ RawAccepts data dst r := by
      rintro dst r ⟨fuel, h⟩
      rw [rawUncompress, hfail] at h
      exact absurd (Prod.mk.inj (Option.some.inj h)).1 Bool.false_ne_true
    have hstring : ∀ old r, ¬ StringAccepts maxSize data old r := by
      rintro old r ⟨fuel, h⟩
      rw [uncompress] at h
      rcases hparse : getUncompressedLength data with _ | m
      · rw [hparse] at h
        exact absurd (Prod.mk.inj (Option.some.inj h)).1 Bool.false_ne_true
      · rw [hparse] at h
        dsimp only at h
        by_cases hmax : maxSize < m
        · rw [if_pos hmax] at h
          exact absurd (Prod.mk.inj (Option.some.inj h)).1 Bool.false_ne_true
        · rw [if_neg hmax] at h
          exact hraw _ r ⟨fuel, h⟩
    have hbuffers : ∀ iov r, ¬ IOVecAccepts data iov r := by
      rintro iov r ⟨fuel, h⟩
      rw [rawUncompressToIOVec, hfail] at h
      exact absurd (Prod.mk.inj (Option.some.inj h)).1 Bool.false_ne_true
    exact {
      flat := fun dst _ => iff_of_false hvalid fun ⟨r, hr⟩ => hraw dst r hr
      string := fun _ old => iff_of_false hvalid fun ⟨r, hr⟩ => hstring old r hr
      buffers := fun iov _ _ => iff_of_false hvalid fun ⟨r, hr⟩ => hbuffers iov r hr
      same := ⟨[], fun dst r _ hr => absurd hr (hraw dst r), fun old r hr => absurd hr (hstring old r),
        fun iov r _ _ hr => absurd hr (hbuffers iov r)⟩
      short := fun iov r _ _ => hbuffers iov r
      returns := decoders_return maxSize }
  have hn := announcedLength_eq hread
  have hlong : ∀ out, Describes s out → out.length = n → n ≤ maxSize → ¬ Overlong 5 data :=
    fun out hout hlen hmax hover => hcond ⟨hover, ⟨n, s, out, hread, hout, hlen⟩, by rwa [hn]⟩
  have hvalid := isValid_iff hread
  refine ⟨fun dst hdst => ?_, fun hmax old => ?_, fun iov hiov hroom => ?_, ?_, fun iov r hiov hroom => ?_, decoders_return maxSize⟩
  · rw [hn] at hdst
    rw [hvalid]
    exact exists_congr fun r => (rawAccepts_iff hread hdst).symm
  · rw [hn] at hmax
    rw [hvalid]
    refine exists_congr fun r => ?_
    rw [stringAccepts_iff hread]
    exact ⟨fun h => ⟨hlong r h.1 h.2 hmax, hmax, h⟩, fun h => h.2.2⟩
  · rw [hn] at hroom
    rw [hvalid, iovecAccepts_iff hread hiov hroom]
  · by_cases hany : ∃ out, Describes s out
    · obtain ⟨out, hout⟩ := hany
      refine ⟨out, fun dst r hdst hr => ?_, fun old r hr => ?_, fun iov r hiov hroom hr => ?_⟩
      · rw [hn] at hdst
        exact describes_unique ((rawAccepts_iff hread hdst).1 hr).1 hout
      · exact describes_unique ((stringAccepts_iff hread).1 hr).2.2.1 hout
      · rw [hn] at hroom ⊢
        exact describes_unique (iovecAccepts_describes hread hiov hroom hr) hout
    · refine ⟨[], fun dst r hdst hr => ?_, fun old r hr => ?_, fun iov r hiov hroom hr => ?_⟩
      · rw [hn] at hdst
        exact absurd ⟨r, ((rawAccepts_iff hread hdst).1 hr).1⟩ hany
      · exact absurd ⟨r, ((stringAccepts_iff hread).1 hr).2.2.1⟩ hany
      · rw [hn] at hroom
        exact absurd ⟨_, iovecAccepts_describes hread hiov hroom hr⟩ hany
  · rw [hn] at hroom
    exact iovec_short hread hiov hroom

def overlongEmpty : Bytes := [128, 128, 128, 128, 16]

theorem decoders_disagree : ¬ DecodersAgree (2 ^ 62) overlongEmpty := by
  intro hagree
  have hvalid : IsValid overlongEmpty := ⟨1, rfl⟩
  have hlength : announcedLength overlongEmpty ≤ 2 ^ 62 := Nat.zero_le _
  obtain ⟨r, fuel, hr⟩ := (hagree.string hlength []).1 hvalid
  have hrefused : uncompress (2 ^ 62) fuel overlongEmpty [] = some (false, []) := rfl
  exact absurd (Prod.mk.inj (Option.some.inj (hrefused.symm.trans hr))).1 Bool.false_ne_true

end

end KVStores.Snappy
