import KVStores.Snappy.DecompressRun

/-!
# The input of the decompressor as one stream

What the decompressor has still to read is the bytes in its buffer and, behind those it has peeked at, the bytes of its source.
Its counters do not overflow as long as each fragment is below 2^32 bytes.
-/

namespace KVStores.Snappy

open List Option

theorem skip_flatten : ∀ {n : ℕ} {s : Source}, (skip n s).flatten = s.flatten.drop n := by
  intro n s
  induction s generalizing n with
  | nil => exact drop_nil.symm
  | cons f fs ih =>
    rw [skip]
    by_cases hin : n < f.length
    · rw [if_pos hin, flatten_cons, flatten_cons, drop_append_of_le_length (Nat.le_of_lt hin)]
    · rw [if_neg hin, ih, flatten_cons, drop_append, drop_eq_nil_of_le (Nat.not_lt.1 hin), nil_append]

theorem skip_nonempty : ∀ {n : ℕ} {s : Source}, [] ∉ s → [] ∉ skip n s := by
  intro n s
  induction s generalizing n with
  | nil => exact fun h => h
  | cons f fs ih =>
    intro h
    rw [skip]
    by_cases hin : n < f.length
    · rw [if_pos hin]
      refine not_mem_cons_of_ne_of_not_mem (fun hempty => ?_) fun hmem => h (mem_cons_of_mem f hmem)
      have hlen := congrArg List.length hempty
      rw [length_drop] at hlen
      exact absurd hlen (by rw [length_nil]; omega)
    · rw [if_neg hin]
      exact ih fun hmem => h (mem_cons_of_mem f hmem)

theorem peek_flatten : ∀ s : Source, s.flatten = peek s ++ (skip (peek s).length s).flatten := by
  intro s
  rw [skip_flatten]
  cases s with
  | nil => rfl
  | cons f fs => rw [peek, flatten_cons, drop_left]

theorem peek_eq_nil {s : Source} (hs : [] ∉ s) (h : peek s = []) : s = [] := by
  cases s with
  | nil => rfl
  | cons f fs =>
    have hf : f = [] := h
    exact absurd (hf ▸ mem_cons_self) hs

/-- No fragment is too long for a `uint32`. -/
def Small (s : Source) : Prop := ∀ f ∈ s, f.length < 2 ^ 32

theorem Small.skip : ∀ {n : ℕ} {s : Source}, Small s → Small (skip n s) := by
  intro n s
  induction s generalizing n with
  | nil => exact fun h => h
  | cons f fs ih =>
    intro h
    have hrest : Small fs := fun g hg => h g (mem_cons_of_mem f hg)
    rw [Snappy.skip]
    by_cases hin : n < f.length
    · rw [if_pos hin]
      intro g hg
      obtain rfl | hg := mem_cons.mp hg
      · have hf := h f mem_cons_self
        rw [length_drop]
        omega
      · exact hrest g hg
    · rw [if_neg hin]
      exact ih hrest

theorem Small.peek {s : Source} (h : Small s) : (peek s).length < 2 ^ 32 := by
  cases s with
  | nil => exact Nat.two_pow_pos 32
  | cons f fs => exact h f mem_cons_self

namespace Decompressor

def stream (d : Decompressor) : Bytes := d.buf ++ d.reader.flatten.drop d.peeked

/-- The counters do not overflow, and only the end of the source is empty. -/
structure Fits (d : Decompressor) : Prop where
  nonempty : [] ∉ d.reader
  small : Small d.reader
  buf_small : d.buf.length < 2 ^ 32

variable {d : Decompressor}

/-- **Fetching** shows the rest of the stream. -/
theorem Fits.fetch (h : d.Fits) : d.fetch.Fits ∧ d.buf ++ d.fetch.stream = d.stream ∧ (d.fetch.buf = [] → d.fetch.stream = []) := by
  have hsmall : Small (skip d.peeked d.reader) := h.small.skip
  have hmod : (peek (skip d.peeked d.reader)).length % 2 ^ 32 = (peek (skip d.peeked d.reader)).length := Nat.mod_eq_of_lt hsmall.peek
  have hstream : d.fetch.stream = d.reader.flatten.drop d.peeked := by
    show peek (skip d.peeked d.reader) ++ (skip d.peeked d.reader).flatten.drop ((peek (skip d.peeked d.reader)).length % 2 ^ 32) = _
    rw [hmod, ← skip_flatten, ← peek_flatten, skip_flatten]
  refine ⟨⟨skip_nonempty h.nonempty, hsmall, hsmall.peek⟩, by rw [hstream]; rfl, fun hend => ?_⟩
  have hnil := peek_eq_nil (skip_nonempty h.nonempty) hend
  rw [hstream, ← skip_flatten, hnil]
  rfl

/-- **The loop of `RefillTag`** gets the bytes that are needed, or all that there are. -/
theorem stitch_spec {needed : ℕ} : ∀ {fuel : ℕ} {reader : Source} {scratch : Bytes}, [] ∉ reader → Small reader →
    needed + 1 ≤ fuel + scratch.length → scratch.length ≤ needed → ∃ b reader' scratch', stitch needed fuel reader scratch = some (b, reader', scratch') ∧
      [] ∉ reader' ∧ Small reader' ∧ scratch' ++ reader'.flatten = scratch ++ reader.flatten ∧ scratch'.length ≤ needed ∧
      (b = true ↔ needed ≤ (scratch ++ reader.flatten).length) ∧ (b = true → scratch'.length = needed) := by
  intro fuel
  induction fuel with
  | zero =>
    intro reader scratch _ _ hfuel hle
    omega
  | succ fuel ih =>
    intro reader scratch hne hsmall hfuel hle
    rw [stitch]
    by_cases hdone : needed ≤ scratch.length
    · rw [if_pos hdone]
      refine ⟨true, reader, scratch, rfl, hne, hsmall, rfl, hle, iff_of_true rfl ?_, fun _ => by omega⟩
      rw [length_append]
      omega
    rw [if_neg hdone]
    by_cases hend : peek reader = []
    · rw [if_pos hend]
      have hnil := peek_eq_nil hne hend
      refine ⟨false, reader, scratch, rfl, hne, hsmall, rfl, hle, iff_of_false Bool.false_ne_true ?_, fun h => absurd h Bool.false_ne_true⟩
      rw [hnil, flatten_nil, append_nil]
      exact hdone
    rw [if_neg hend]
    have hpos := length_pos_iff.2 hend
    rw [Nat.mod_eq_of_lt hsmall.peek]
    have hadd : ∃ k, min (needed - scratch.length) (peek reader).length = k ∧ 0 < k ∧ k ≤ needed - scratch.length ∧ k ≤ (peek reader).length :=
      ⟨_, rfl, by omega, Nat.min_le_left _ _, Nat.min_le_right _ _⟩
    obtain ⟨k, hk, hkpos, hkneed, hkpeek⟩ := hadd
    rw [hk]
    have htake : ((peek reader).take k).length = k := by rw [length_take, Nat.min_eq_left hkpeek]
    have hsame : scratch ++ (peek reader).take k ++ (skip k reader).flatten = scratch ++ reader.flatten := by
      rw [skip_flatten, append_assoc]
      congr 1
      have hfront : (peek reader).take k = reader.flatten.take k := by
        rw [peek_flatten reader, take_append_of_le_length hkpeek]
      rw [hfront, take_append_drop]
    have hlen : (scratch ++ (peek reader).take k).length = scratch.length + k := by rw [length_append, htake]
    obtain ⟨b, reader', scratch', hstitch, hne', hsmall'', hcat, hle', hb, hfull⟩ := @ih (skip k reader) (scratch ++ (peek reader).take k)
      (skip_nonempty hne) hsmall.skip (by omega) (by omega)
    rw [hsame] at hcat hb
    exact ⟨b, reader', scratch', hstitch, hne', hsmall'', hcat, hle', hb, hfull⟩

/-- What `MAYBE_REFILL` makes of a decompressor: at the end of the stream it stops with `eof_`, in the middle of a tag without it, and else
the tag is in the buffer. -/
structure Refilled (d d' : Decompressor) (b : Bool) : Prop where
  fits : d'.Fits
  ended : d.stream = [] → b = false ∧ d'.eof = true
  tag : ∀ c rest, d.stream = c :: rest → d'.eof = d.eof ∧ (b = true ↔ extraBytes c ≤ rest.length) ∧
    (b = true → d'.stream = d.stream ∧ extraBytes c + 1 ≤ d'.buf.length)

theorem Fits.refillAt (h : d.Fits) {c : UInt8} {ip : Bytes} (hbuf : d.buf = c :: ip) : ∃ b d', d.refillAt c = some (b, d') ∧ d.Refilled d' b := by
  have hmod : d.buf.length % 2 ^ 32 = d.buf.length := Nat.mod_eq_of_lt h.buf_small
  have hstream : d.stream = c :: (ip ++ d.reader.flatten.drop d.peeked) := by rw [stream, hbuf, cons_append]
  have hlen : d.stream.length = d.buf.length + (d.reader.flatten.drop d.peeked).length := by rw [stream, length_append]
  have hextra := extraBytes_le c
  have hne : d.stream ≠ [] := by
    rw [hstream]
    exact cons_ne_nil _ _
  rw [Decompressor.refillAt, hmod, take_length]
  by_cases hshort : d.buf.length < extraBytes c + 1
  · rw [if_pos hshort]
    obtain ⟨b, reader', scratch', hstitch, hne', hsmall', hcat, hle, hb, hfull⟩ := @stitch_spec (extraBytes c + 1) 6 (skip d.peeked d.reader) d.buf
      (skip_nonempty h.nonempty) h.small.skip (by omega) (by omega)
    rw [skip_flatten] at hcat hb
    rw [hstitch]
    refine ⟨b, ⟨reader', scratch', 0, d.eof⟩, rfl, ⟨hne', hsmall', ?_⟩, fun hend => absurd hend hne, fun c' rest hc => ⟨rfl, ?_, fun hb' => ⟨?_, ?_⟩⟩⟩
    · exact lt_of_le_of_lt hle (by omega)
    · obtain ⟨rfl, rfl⟩ := List.cons.inj (hstream.symm.trans hc)
      rw [hb]
      show extraBytes c + 1 ≤ d.stream.length ↔ _
      rw [hstream, length_cons]
      omega
    · exact hcat
    · obtain ⟨rfl, -⟩ := List.cons.inj (hstream.symm.trans hc)
      exact Nat.le_of_eq (hfull hb').symm
  rw [if_neg hshort]
  have hready : ∀ d' : Decompressor, d'.Fits → d'.eof = d.eof → d'.stream = d.stream → d'.buf = d.buf → d.Refilled d' true := by
    intro d' hfits heof hsame hbuf'
    refine ⟨hfits, fun hend => absurd hend hne, fun c' rest hc => ⟨heof, iff_of_true rfl ?_, fun _ => ⟨hsame, ?_⟩⟩⟩
    · obtain ⟨rfl, rfl⟩ := List.cons.inj (hstream.symm.trans hc)
      have hall := congrArg List.length hstream
      rw [length_cons] at hall
      omega
    · obtain ⟨rfl, -⟩ := List.cons.inj (hstream.symm.trans hc)
      rw [hbuf']
      omega
  by_cases hscratch : d.buf.length < kMaximumTagLength
  · rw [if_pos hscratch]
    refine ⟨true, _, rfl, hready _ ⟨skip_nonempty h.nonempty, h.small.skip, h.buf_small⟩ rfl ?_ rfl⟩
    show d.buf ++ (skip d.peeked d.reader).flatten.drop 0 = _
    rw [skip_flatten]
    rfl
  · rw [if_neg hscratch]
    exact ⟨true, d, rfl, hready d h rfl rfl rfl⟩

/-- **`MAYBE_REFILL`.** -/
theorem Fits.maybeRefill (h : d.Fits) : ∃ b d', d.maybeRefill = some (b, d') ∧ d.Refilled d' b := by
  rw [Decompressor.maybeRefill]
  by_cases hshort : d.buf.length < kMaximumTagLength
  · rw [if_pos hshort, refillTag]
    -- the bytes at which the tag begins
    have hfetch : ∃ e : Decompressor, (if d.buf = [] then d.fetch else d) = e ∧ e.Fits ∧ e.stream = d.stream ∧ e.eof = d.eof ∧ (e.buf = [] → e.stream = []) := by
      by_cases hempty : d.buf = []
      · rw [if_pos hempty]
        obtain ⟨hfits, hstream, hend⟩ := h.fetch
        rw [hempty, nil_append] at hstream
        exact ⟨d.fetch, rfl, hfits, hstream, rfl, hend⟩
      · rw [if_neg hempty]
        exact ⟨d, rfl, h, rfl, rfl, fun hnil => absurd hnil hempty⟩
    obtain ⟨e, he, hfits, hstream, heof, hend⟩ := hfetch
    rw [he]
    rcases hbuf : e.buf with _ | ⟨c, ip⟩
    · refine ⟨false, ⟨e.reader, [], e.peeked, true⟩, rfl, ⟨hfits.nonempty, hfits.small, Nat.two_pow_pos 32⟩, fun _ => ⟨rfl, rfl⟩, fun c rest hc => ?_⟩
      rw [← hstream, hend hbuf] at hc
      exact absurd hc.symm (cons_ne_nil c rest)
    · obtain ⟨b, d', hrefill, hd'⟩ := hfits.refillAt hbuf
      refine ⟨b, d', hrefill, hd'.fits, fun hnil => hd'.ended (hstream.trans hnil), fun c rest hc => ?_⟩
      obtain ⟨heof', hb, hgood⟩ := hd'.tag c rest (hstream.trans hc)
      exact ⟨heof'.trans heof, hb, fun hb' => ⟨(hgood hb').1.trans hstream, (hgood hb').2⟩⟩
  · rw [if_neg hshort]
    rw [kMaximumTagLength] at hshort
    refine ⟨true, d, rfl, h, fun hnil => ?_, fun c rest hc => ⟨rfl, iff_of_true rfl ?_, fun _ => ⟨rfl, ?_⟩⟩⟩
    · have hlen := congrArg List.length hnil
      rw [stream, length_append, length_nil] at hlen
      omega
    · have hlen := congrArg List.length hc
      have hextra := extraBytes_le c
      rw [stream, length_append, length_cons] at hlen
      omega
    · have hextra := extraBytes_le c
      omega

end Decompressor

variable {σ : Type} {W : Writer σ} {P : σ → Prop}

/-- No call of a writer reaches outside its arrays. -/
structure Safe (W : Writer σ) (P : σ → Prop) : Prop where
  append : ∀ {w} (ip : Bytes), P w → ∃ p, W.append ip w = some p ∧ P p.2
  fast : ∀ {w} (ip : Bytes) (n : ℕ), P w → ∃ p, W.tryFastAppend ip n w = some p ∧ P p.2 ∧ (p.1 = true → n + kMaximumTagLength ≤ ip.length)
  self : ∀ {w} {offset len : ℕ}, P w → offset < 2 ^ 32 → 0 < len → ∃ p, W.appendFromSelf offset len w = some p ∧ P p.2

open Decompressor

/-- **A literal** is taken from the stream. -/
theorem literalLoop_returns (hW : Safe W P) : ∀ {fuel n : ℕ} {d : Decompressor} {w : σ}, d.Fits → P w → n + 1 ≤ fuel → (d.buf = [] → n + 2 ≤ fuel) →
    ∃ p, literalLoop W fuel d n w = some p ∧ p.2.1.Fits ∧ P p.2.2 ∧ (p.1 = true → p.2.1.stream.length ≤ d.stream.length) := by
  intro fuel
  induction fuel with
  | zero =>
    intro n d w _ _ hfuel
    omega
  | succ fuel ih =>
    intro n d w hd hP hfuel hempty
    rw [literalLoop]
    by_cases hmore : d.buf.length < n
    · rw [if_pos hmore]
      obtain ⟨q, happend, hP'⟩ := hW.append d.buf hP
      obtain ⟨hfits, hstream, -⟩ := hd.fetch
      rw [happend, bind_some]
      by_cases hrefused : q.1 = false
      · rw [if_pos hrefused]
        exact ⟨_, rfl, hd, hP', fun h => absurd h Bool.false_ne_true⟩
      rw [if_neg hrefused]
      by_cases hend : d.fetch.buf = []
      · rw [if_pos hend]
        exact ⟨_, rfl, hfits, hP', fun h => absurd h Bool.false_ne_true⟩
      rw [if_neg hend]
      have hlen := congrArg List.length hstream
      rw [length_append] at hlen
      have hfuel' : n - d.buf.length + 1 ≤ fuel := by
        by_cases hnil : d.buf = []
        · have hfuel'' := hempty hnil
          omega
        · have hpos := length_pos_iff.2 hnil
          omega
      obtain ⟨p, hloop, hp, hPp, hle⟩ := ih hfits hP' hfuel' fun hnil => absurd hnil hend
      exact ⟨p, hloop, hp, hPp, fun h => (hle h).trans (by omega)⟩
    · rw [if_neg hmore]
      obtain ⟨q, happend, hP'⟩ := hW.append (d.buf.take n) hP
      rw [happend, map_some]
      have hsmall := hd.buf_small
      have hdrop : (d.buf.drop n).length = d.buf.length - n := length_drop
      refine ⟨_, rfl, ⟨hd.nonempty, hd.small, ?_⟩, hP', fun _ => ?_⟩
      · show (d.buf.drop n).length < 2 ^ 32
        omega
      · show (d.buf.drop n ++ d.reader.flatten.drop d.peeked).length ≤ (d.buf ++ d.reader.flatten.drop d.peeked).length
        rw [length_append, length_append]
        omega

theorem Decompressor.Fits.advance {d : Decompressor} (hd : d.Fits) {n : ℕ} {buf : Bytes} (hbuf : buf = d.buf.drop n) (hn : n ≤ d.buf.length) :
    ({ d with buf := buf } : Decompressor).Fits ∧ ({ d with buf := buf } : Decompressor).stream = d.stream.drop n := by
  have hsmall := hd.buf_small
  refine ⟨⟨hd.nonempty, hd.small, ?_⟩, ?_⟩
  · rw [hbuf, length_drop]
    omega
  · show buf ++ d.reader.flatten.drop d.peeked = (d.buf ++ d.reader.flatten.drop d.peeked).drop n
    rw [hbuf, drop_append_of_le_length hn]

theorem literal_returns (hW : Safe W P) {n : ℕ} {d : Decompressor} {w : σ} (hd : d.Fits) (hP : P w) (hlen : n - 60 ≤ d.buf.length) :
    ∃ p, literal W d n w = some p ∧ p.2.1.Fits ∧ P p.2.2 ∧ (p.1 = true → p.2.1.stream.length ≤ d.stream.length) := by
  rw [literal]
  by_cases hlong : 61 ≤ n
  · rw [if_pos hlong]
    obtain ⟨hfits, hstream⟩ := hd.advance rfl hlen
    obtain ⟨p, hloop, hp, hPp, hle⟩ := @literalLoop_returns σ W P hW ((ofLittleEndian (d.buf.take (n - 60)) + 1) % 2 ^ 32 + 2)
      ((ofLittleEndian (d.buf.take (n - 60)) + 1) % 2 ^ 32) _ w hfits hP (Nat.le_succ _) fun _ => Nat.le_refl _
    refine ⟨p, hloop, hp, hPp, fun h => (hle h).trans ?_⟩
    rw [hstream, length_drop]
    exact Nat.sub_le _ _
  · rw [if_neg hlong]
    exact literalLoop_returns hW hd hP (Nat.le_succ _) fun _ => Nat.le_refl _

def Decompressor.Ready (d : Decompressor) : Prop := d.Fits ∧ ∃ c rest, d.stream = c :: rest ∧ extraBytes c + 1 ≤ d.buf.length

theorem Decompressor.Fits.refilled {d : Decompressor} (hd : d.Fits) {w : σ} (hP : P w) :
    ∃ p, Snappy.refilled (true, d, w) = some p ∧ P p.2.2 ∧ (p.1 = true → p.2.1.Ready ∧ p.2.1.stream = d.stream) := by
  obtain ⟨b, d', hrefill, hd'⟩ := hd.maybeRefill
  refine ⟨(b, d', w), by rw [Snappy.refilled, if_neg (Bool.noConfusion : ¬ true = false), hrefill]; rfl, hP, fun hb => ?_⟩
  have hb' : b = true := hb
  rcases hs : d.stream with _ | ⟨c, rest⟩
  · exact absurd ((hd'.ended hs).1.symm.trans hb') Bool.false_ne_true
  · obtain ⟨-, -, hgood⟩ := hd'.tag c rest hs
    obtain ⟨hsame, hlen⟩ := hgood hb'
    exact ⟨⟨hd'.fits, c, rest, hsame.trans hs, hlen⟩, hsame.trans hs⟩

/-- **The number of bytes behind a literal's tag** is in the table. -/
theorem extraBytes_literal {c : UInt8} (h : c.toNat % 4 = 0) : extraBytes c = c.toNat / 4 + 1 - 60 := by
  have hc := c.toNat_lt
  rw [extraBytes, entry, getD_charTable hc, tableEntry, if_pos h]
  split_ifs <;> omega

/-- **A round** takes at least the tag from the stream. -/
theorem round_returns (hW : Safe W P) {d : Decompressor} {w : σ} (hd : d.Ready) (hP : P w) :
    ∃ p, round W d w = some p ∧ P p.2.2 ∧ (p.1 = true → p.2.1.Ready ∧ p.2.1.stream.length < d.stream.length) := by
  obtain ⟨hfits, c, rest, hstream, hlen⟩ := hd
  obtain ⟨ip, hbuf⟩ : ∃ ip, d.buf = c :: ip := by
    rcases hb : d.buf with _ | ⟨c', ip⟩
    · rw [hb] at hlen
      exact absurd hlen (by rw [length_nil]; omega)
    · rw [stream, hb, cons_append] at hstream
      exact ⟨ip, by rw [(List.cons.inj hstream).1]⟩
  have hip : ip.length + 1 = d.buf.length := by rw [hbuf, length_cons]
  rw [hstream, round, tag, hbuf]
  dsimp only
  -- what is left when the function goes on behind `n` bytes
  have hnext : ∀ (n : ℕ) (buf : Bytes) (w' : σ), buf = d.buf.drop (n + 1) → n + 1 ≤ d.buf.length → P w' →
      ∃ p, Snappy.refilled (true, { d with buf := buf }, w') = some p ∧ P p.2.2 ∧ (p.1 = true → p.2.1.Ready ∧ p.2.1.stream.length < (c :: rest).length) := by
    intro n buf w' hb hn hP'
    obtain ⟨hfits', hstream'⟩ := hfits.advance hb hn
    obtain ⟨p, hrefill, hPp, hgood⟩ := hfits'.refilled hP'
    refine ⟨p, hrefill, hPp, fun h => ⟨(hgood h).1, ?_⟩⟩
    rw [(hgood h).2, hstream', hstream, length_drop, length_cons]
    omega
  by_cases hliteral : c.toNat % 4 = 0
  · rw [if_pos hliteral]
    obtain ⟨q, hfast, hP', hroom⟩ := hW.fast ip (c.toNat / 4 + 1) hP
    rw [hfast, bind_some]
    by_cases hdone : q.1 = true
    · rw [if_pos hdone, bind_some]
      have hroom' := hroom hdone
      rw [kMaximumTagLength] at hroom'
      obtain ⟨hfits', hstream'⟩ := @Fits.advance d hfits (c.toNat / 4 + 1 + 1) (ip.drop (c.toNat / 4 + 1)) (by rw [hbuf, drop_succ_cons]) (by omega)
      refine ⟨_, rfl, hP', fun _ => ⟨⟨hfits', ?_⟩, ?_⟩⟩
      · have hdrop : (ip.drop (c.toNat / 4 + 1)).length = ip.length - (c.toNat / 4 + 1) := length_drop
        rcases hb : ip.drop (c.toNat / 4 + 1) with _ | ⟨c', ip'⟩
        · rw [hb, length_nil] at hdrop
          omega
        · have hextra := extraBytes_le c'
          rw [hb] at hdrop
          refine ⟨c', ip' ++ d.reader.flatten.drop d.peeked, by rw [stream, cons_append], ?_⟩
          show extraBytes c' + 1 ≤ (c' :: ip').length
          omega
      · rw [hstream', hstream, length_drop, length_cons]
        omega
    · rw [if_neg hdone, bind_flag]
      obtain ⟨hfits', hstream'⟩ := @Fits.advance d hfits 1 ip (by rw [hbuf, drop_one, tail_cons]) (by omega)
      rw [extraBytes_literal hliteral] at hlen
      obtain ⟨x, hx, hxfits, hPx, hle⟩ := @literal_returns σ W P hW (c.toNat / 4 + 1) { d with buf := ip } q.2 hfits' hP' (show _ ≤ ip.length by omega)
      rw [hx, bind_some]
      by_cases hgo : x.1 = false
      · rw [Snappy.refilled, if_pos hgo]
        exact ⟨x, rfl, hPx, fun h => absurd (hgo.symm.trans h) Bool.false_ne_true⟩
      · have htrue : x.1 = true := Bool.not_eq_false _ ▸ hgo
        obtain ⟨p, hrefill, hPp, hgood⟩ := hxfits.refilled hPx
        refine ⟨p, by rw [← hrefill, ← htrue], hPp, fun h => ⟨(hgood h).1, ?_⟩⟩
        rw [(hgood h).2]
        refine lt_of_le_of_lt (hle htrue) ?_
        rw [hstream', hstream, length_drop, length_cons]
        omega
  · rw [if_neg hliteral, bind_copied]
    have hoffset : (copyOffset c + ofLittleEndian (ip.take (extraBytes c))) % 2 ^ 32 < 2 ^ 32 := Nat.mod_lt _ (by decide)
    obtain ⟨q, hself, hP'⟩ := hW.self hP hoffset (tagLength_pos hliteral)
    rw [hself, map_some, bind_some]
    by_cases hgo : q.1 = false
    · rw [Snappy.refilled, if_pos hgo]
      exact ⟨_, rfl, hP', fun h => absurd (hgo.symm.trans h) Bool.false_ne_true⟩
    · have htrue : q.1 = true := Bool.not_eq_false _ ▸ hgo
      rw [htrue]
      exact hnext (extraBytes c) _ q.2 (by rw [hbuf, drop_succ_cons]) hlen hP'

/-- **`DecompressAllTags` returns**, whatever the writer. -/
theorem tagLoop_returns (hW : Safe W P) : ∀ {fuel : ℕ} {d : Decompressor} {w : σ}, d.Ready → P w → d.stream.length < fuel →
    ∃ p, tagLoop W fuel d w = some p ∧ P p.2 := by
  intro fuel
  induction fuel with
  | zero =>
    intro d w _ _ hfuel
    omega
  | succ fuel ih =>
    intro d w hd hP hfuel
    obtain ⟨p, hround, hP', hgood⟩ := round_returns hW hd hP
    rw [tagLoop_succ, hround, bind_some]
    by_cases hgo : p.1 = false
    · rw [if_pos hgo]
      exact ⟨_, rfl, hP'⟩
    · rw [if_neg hgo]
      obtain ⟨hready, hless⟩ := hgood (Bool.not_eq_false _ ▸ hgo)
      exact ih hready hP' (by omega)

theorem decompressAllTags_returns (hW : Safe W P) {d : Decompressor} {w : σ} (hd : d.Fits) (hP : P w) :
    ∃ fuel p, decompressAllTags W fuel d w = some p ∧ P p.2 := by
  obtain ⟨p, hrefill, hP', hgood⟩ := hd.refilled hP
  refine ⟨d.stream.length + 1, ?_⟩
  rw [decompressAllTags_eq, hrefill, bind_some]
  by_cases hgo : p.1 = false
  · rw [if_pos hgo]
    exact ⟨_, rfl, hP'⟩
  · rw [if_neg hgo]
    obtain ⟨hready, hsame⟩ := hgood (Bool.not_eq_false _ ▸ hgo)
    exact tagLoop_returns hW hready hP' (by rw [hsame]; exact Nat.lt_succ_self _)

end KVStores.Snappy
