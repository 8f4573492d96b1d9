import KVStores.Snappy.CompressStream
import KVStores.Snappy.Cuttings

/-!
# Compression and back

What `Compress` makes of an input is the varint of its length and tags that mean it, so `RawUncompress` and `Uncompress` return it, but
only if the tags have fewer than 2^32 bytes: `peeked_` and `nbuf` are `uint32`s, and a decompressor that has peeked at more
bytes never comes to the end of them.
-/

namespace KVStores.Snappy

open List Option

theorem readLengthLoop_varint : ∀ {k v shift result : ℕ} {s : Source} {t : Bytes}, Shows s (varintLoop k v ++ t) → v < 128 ^ (k + 1) →
    result + v * 2 ^ shift < 2 ^ 32 → shift + 7 * k < 32 → readLengthLoop (k + 2) shift result s = some (result + v * 2 ^ shift, leftover t) := by
  intro k
  induction k with
  | zero =>
    intro v shift result s t hs hv hsum hshift
    have hbyte : (UInt8.ofNat v).toNat = v := UInt8.toNat_ofNat_of_lt' (show v < 256 by omega)
    have hlast : UInt8.ofNat v < 128 := UInt8.lt_iff_toNat_lt.2 (by rw [hbyte]; exact hv)
    rw [varintLoop, singleton_append] at hs
    rw [readLengthLoop, if_neg (by omega), hs.peek]
    dsimp only
    rw [if_pos hlast, hbyte, Nat.mod_eq_of_lt (show v < 128 from hv), Nat.mod_eq_of_lt hsum, hs.skip]
  | succ k ih =>
    intro v shift result s t hs hv hsum hshift
    by_cases hmore : 128 ≤ v
    · have hbyte := moreByte_toNat v
      have hnot : ¬ moreByte v < 128 := fun h => by
        have hnat : (moreByte v).toNat < 128 := UInt8.lt_iff_toNat_lt.1 h
        omega
      have hsplit : result + v % 128 * 2 ^ shift + v / 128 * 2 ^ (shift + 7) = result + v * 2 ^ shift := by
        calc result + v % 128 * 2 ^ shift + v / 128 * 2 ^ (shift + 7)
            = result + (v % 128 + 128 * (v / 128)) * 2 ^ shift := by ring
          _ = result + v * 2 ^ shift := by rw [Nat.mod_add_div]
      have hdiv : v / 128 < 128 ^ (k + 1) := Nat.div_lt_of_lt_mul (by rw [Nat.mul_comm, ← Nat.pow_succ]; exact hv)
      rw [varintLoop, if_pos hmore, cons_append] at hs
      rw [readLengthLoop, if_neg (by omega), hs.peek]
      dsimp only
      have hlow : (v % 128 + 128) % 128 = v % 128 := by omega
      rw [if_neg hnot, hbyte, hlow, Nat.mod_eq_of_lt (by omega), ih (Or.inr hs.skip) hdiv (by omega) (by omega), hsplit]
    · have hv' : v < 128 := Nat.not_le.1 hmore
      have hbyte : (UInt8.ofNat v).toNat = v := UInt8.toNat_ofNat_of_lt' (show v < 256 by omega)
      have hlast : UInt8.ofNat v < 128 := UInt8.lt_iff_toNat_lt.2 (by rw [hbyte]; exact hv')
      rw [varintLoop, if_neg hmore, singleton_append] at hs
      rw [readLengthLoop, if_neg (by omega), hs.peek]
      dsimp only
      rw [if_pos hlast, hbyte, Nat.mod_eq_of_lt hv', Nat.mod_eq_of_lt hsum, hs.skip]

variable {n : ℕ}

/-- **The length is read back**, and the tags are left. -/
theorem readUncompressedLength_encode32 (hn : n < 2 ^ 32) (t : Bytes) : readUncompressedLength [encode32 n ++ t] = some (n, leftover t) := by
  have hread := @readLengthLoop_varint 4 n 0 0 [encode32 n ++ t] t (Or.inl (by rw [encode32_eq])) (by omega) (by omega) (by decide)
  rwa [Nat.zero_add, Nat.pow_zero, Nat.mul_one] at hread

theorem not_overlong_varint : ∀ {k v : ℕ} {t : Bytes}, v < 16 * 128 ^ k → ¬ Overlong (k + 1) (varintLoop k v ++ t) := by
  intro k
  induction k with
  | zero =>
    intro v t hv hlong
    have hbyte : (UInt8.ofNat v).toNat = v := UInt8.toNat_ofNat_of_lt' (show v < 256 by omega)
    have hbig : 16 ≤ (UInt8.ofNat v).toNat := hlong.1
    omega
  | succ k ih =>
    intro v t hv hlong
    rw [varintLoop] at hlong
    by_cases hmore : 128 ≤ v
    · rw [if_pos hmore] at hlong
      exact ih (by omega) hlong.2
    · rw [if_neg hmore] at hlong
      have hbyte : (UInt8.ofNat v).toNat = v := UInt8.toNat_ofNat_of_lt' (show v < 256 by omega)
      have hbig : 128 ≤ (UInt8.ofNat v).toNat := hlong.1
      omega

namespace Decompressor

/-- There are 2^32 bytes or more in the only fragment, and at a multiple of 2^32 of them the decompressor has not looked. -/
def Endless (d : Decompressor) : Prop := d.eof = false ∧ ∃ t, d.reader = [t] ∧ 2 ^ 32 ≤ t.length ∧ d.peeked = t.length % 2 ^ 32

def Starts (d : Decompressor) : Prop := d.Endless ∨ d.eof = false ∧ d.buf = [] ∧ d.peeked = 0 ∧ ∃ t, d.reader = [t] ∧ 2 ^ 32 ≤ t.length

variable {d d' : Decompressor}

theorem Endless.buf (h : d.Endless) (ip : Bytes) : ({ d with buf := ip } : Decompressor).Endless := h

theorem skip_one {t : Bytes} (h : n < t.length) : skip n [t] = [t.drop n] := by
  rw [skip, if_pos h]

/-- **Fetching** leaves a multiple of 2^32 bytes behind. -/
theorem Starts.fetch (h : d.Starts) : d.fetch.Endless ∧ d.fetch.buf ≠ [] := by
  have hall : d.eof = false ∧ ∃ t, skip d.peeked d.reader = [t] ∧ 2 ^ 32 ≤ t.length := by
    rcases h with ⟨heof, t, hreader, hlong, hpeeked⟩ | ⟨heof, -, hpeeked, t, hreader, hlong⟩
    · refine ⟨heof, t.drop d.peeked, ?_, ?_⟩
      · rw [hreader, skip_one (by omega)]
      · rw [length_drop]
        omega
    · refine ⟨heof, t, ?_, hlong⟩
      rw [hpeeked, hreader, skip_one (by omega), drop_zero]
  obtain ⟨heof, t, hskip, hlong⟩ := hall
  have hbuf : d.fetch.buf = t := by
    show peek (skip d.peeked d.reader) = t
    rw [hskip]
    rfl
  refine ⟨⟨heof, t, hskip, hlong, ?_⟩, ?_⟩
  · show (d.fetch.buf).length % 2 ^ 32 = _
    rw [hbuf]
  · rw [hbuf]
    exact ne_nil_of_length_pos (by omega)

/-- A round that gets no byte is repeated for ever. -/
theorem stitch_stuck {needed : ℕ} {t scratch : Bytes} (ht : t ≠ []) (hmod : t.length % 2 ^ 32 = 0) (hmore : scratch.length < needed) :
    ∀ {fuel : ℕ}, stitch needed fuel [t] scratch = none := by
  intro fuel
  induction fuel with
  | zero => rfl
  | succ fuel ih =>
    have hpeek : peek [t] = t := rfl
    rw [stitch, if_neg (by omega), hpeek, if_neg ht]
    dsimp only
    rw [hmod, Nat.min_zero, take_zero, append_nil, skip_one (length_pos_iff.2 ht), drop_zero]
    exact ih

variable {c : UInt8} {p : Bool × Decompressor}

theorem Endless.refillAt (h : d.Endless) (hrefill : d.refillAt c = some p) : p.2.Endless := by
  obtain ⟨heof, t, hreader, hlong, hpeeked⟩ := h
  have hskip : skip d.peeked d.reader = [t.drop d.peeked] := by rw [hreader, skip_one (by omega)]
  have hlen : (t.drop d.peeked).length = t.length - d.peeked := length_drop
  rw [Decompressor.refillAt] at hrefill
  by_cases hshort : d.buf.length % 2 ^ 32 < extraBytes c + 1
  · have hscratch : (d.buf.take (d.buf.length % 2 ^ 32)).length < extraBytes c + 1 := lt_of_le_of_lt (length_take_le _ _) hshort
    rw [if_pos hshort, hskip, stitch_stuck (ne_nil_of_length_pos (by omega)) (by omega) hscratch] at hrefill
    exact absurd hrefill.symm (some_ne_none p)
  rw [if_neg hshort] at hrefill
  by_cases hscratch : d.buf.length % 2 ^ 32 < kMaximumTagLength
  · rw [if_pos hscratch] at hrefill
    obtain rfl := Option.some.inj hrefill
    exact ⟨heof, t.drop d.peeked, hskip, by omega, show 0 = (t.drop d.peeked).length % 2 ^ 32 by omega⟩
  · rw [if_neg hscratch] at hrefill
    obtain rfl := Option.some.inj hrefill
    exact ⟨heof, t, hreader, hlong, hpeeked⟩

variable {ip : Bytes}

theorem refillTag_some (hbuf : d.buf = c :: ip) : d.refillTag = d.refillAt c := by
  rw [refillTag, if_neg (by rw [hbuf]; exact cons_ne_nil c ip), hbuf]

theorem refillTag_fetch (hempty : d.buf = []) (hbuf : d.fetch.buf = c :: ip) : d.refillTag = d.fetch.refillAt c := by
  rw [refillTag, if_pos hempty, hbuf]

theorem Starts.maybeRefill (h : d.Starts) (hrefill : d.maybeRefill = some p) : p.2.Endless := by
  rw [Decompressor.maybeRefill] at hrefill
  by_cases hshort : d.buf.length < kMaximumTagLength
  · rw [if_pos hshort] at hrefill
    by_cases hempty : d.buf = []
    · obtain ⟨c, ip, hbuf⟩ := exists_cons_of_ne_nil h.fetch.2
      rw [refillTag_fetch hempty hbuf] at hrefill
      exact h.fetch.1.refillAt hrefill
    · obtain ⟨c, ip, hbuf⟩ := exists_cons_of_ne_nil hempty
      rw [refillTag_some hbuf] at hrefill
      exact (h.resolve_right fun hstart => hempty hstart.2.1).refillAt hrefill
  · rw [if_neg hshort] at hrefill
    obtain rfl := Option.some.inj hrefill
    refine h.resolve_right fun hstart => hshort ?_
    rw [hstart.2.1]
    exact Nat.succ_pos 4

end Decompressor

section
variable {σ : Type} {W : Writer σ}

theorem literalLoop_endless : ∀ {fuel n : ℕ} {d : Decompressor} {w : σ} {p : Bool × Decompressor × σ}, d.Endless → literalLoop W fuel d n w = some p →
    p.2.1.Endless := by
  intro fuel
  induction fuel with
  | zero => exact fun {n d w p} _ h => absurd h.symm (some_ne_none p)
  | succ fuel ih =>
    intro n d w p hd h
    rw [literalLoop] at h
    by_cases hmore : d.buf.length < n
    · rw [if_pos hmore] at h
      obtain ⟨q, -, h⟩ := bind_eq_some_iff.1 h
      by_cases hfail : q.1 = false
      · rw [if_pos hfail] at h
        obtain rfl := Option.some.inj h
        exact hd
      · rw [if_neg hfail] at h
        have hfetch : d.fetch.Endless ∧ d.fetch.buf ≠ [] := Decompressor.Starts.fetch (Or.inl hd)
        rw [if_neg hfetch.2] at h
        exact ih hfetch.1 h
    · rw [if_neg hmore] at h
      obtain ⟨q, -, rfl⟩ := map_eq_some_iff.1 h
      exact hd

variable {d : Decompressor} {w : σ}

theorem literal_endless {p : Bool × Decompressor × σ} (hd : d.Endless) (h : literal W d n w = some p) : p.2.1.Endless := by
  rw [literal] at h
  by_cases hlong : 61 ≤ n
  · rw [if_pos hlong] at h
    exact literalLoop_endless (hd.buf _) h
  · rw [if_neg hlong] at h
    exact literalLoop_endless hd h

theorem tag_endless {p : Bool × Bool × Decompressor × σ} (hd : d.Endless) (h : tag W d w = some p) : p.2.2.1.Endless := by
  rw [tag] at h
  rcases hbuf : d.buf with _ | ⟨c, ip⟩
  · rw [hbuf] at h
    exact absurd h.symm (some_ne_none p)
  rw [hbuf] at h
  dsimp only at h
  by_cases hliteral : c.toNat % 4 = 0
  · rw [if_pos hliteral] at h
    obtain ⟨q, -, h⟩ := bind_eq_some_iff.1 h
    by_cases hfast : q.1 = true
    · rw [if_pos hfast] at h
      obtain rfl := Option.some.inj h
      exact hd.buf _
    · rw [if_neg hfast] at h
      obtain ⟨r, hr, rfl⟩ := map_eq_some_iff.1 h
      have hr' := literal_endless (hd.buf ip) hr
      exact hr'
  · rw [if_neg hliteral] at h
    obtain ⟨q, -, rfl⟩ := map_eq_some_iff.1 h
    exact hd.buf _

theorem tagLoop_endless : ∀ {fuel : ℕ} {d : Decompressor} {w : σ} {p : Decompressor × σ}, d.Endless → tagLoop W fuel d w = some p → p.1.Endless := by
  intro fuel
  induction fuel with
  | zero => exact fun {d w p} _ h => absurd h.symm (some_ne_none p)
  | succ fuel ih =>
    intro d w p hd h
    obtain ⟨q, htag, h⟩ := bind_eq_some_iff.1 h
    have hq := tag_endless hd htag
    by_cases hfail : q.1 = false
    · rw [if_pos hfail] at h
      obtain rfl := Option.some.inj h
      exact hq
    rw [if_neg hfail] at h
    by_cases hfast : q.2.1 = false
    · rw [if_pos hfast] at h
      exact ih hq h
    rw [if_neg hfast] at h
    obtain ⟨r, hrefill, h⟩ := bind_eq_some_iff.1 h
    have hr : r.2.Endless := Decompressor.Starts.maybeRefill (Or.inl hq) hrefill
    by_cases hmore : r.1 = false
    · rw [if_pos hmore] at h
      obtain rfl := Option.some.inj h
      exact hr
    · rw [if_neg hmore] at h
      exact ih hr h

/-- **With 2^32 bytes in one fragment** the decompressor never comes to the end, whatever its writer. -/
theorem decompressAllTags_endless {t : Bytes} (ht : 2 ^ 32 ≤ t.length) {fuel : ℕ} {p : Decompressor × σ}
    (h : decompressAllTags W fuel ⟨[t], [], 0, false⟩ w = some p) : p.1.eof = false := by
  have hstart : (⟨[t], [], 0, false⟩ : Decompressor).Starts := Or.inr ⟨rfl, rfl, rfl, t, rfl, ht⟩
  obtain ⟨q, hrefill, h⟩ := bind_eq_some_iff.1 h
  have hq := hstart.maybeRefill hrefill
  by_cases hmore : q.1 = false
  · rw [if_pos hmore] at h
    obtain rfl := Option.some.inj h
    exact hq.1
  · rw [if_neg hmore] at h
    exact (tagLoop_endless hq h).1

end

theorem rawAccepts_short {data t dst r : Bytes} (hread : readUncompressedLength [data] = some (n, leftover t)) (h : RawAccepts data dst r) :
    t.length < 2 ^ 32 := by
  by_contra hlong
  have hleft : leftover t = [t] := if_neg (ne_nil_of_length_pos (by omega))
  obtain ⟨fuel, h⟩ := h
  obtain ⟨⟨b, w⟩, hrun, hb⟩ := map_eq_some_iff.1 h
  rw [internalUncompress, hread, hleft] at hrun
  obtain ⟨p, htags, hresult⟩ := map_eq_some_iff.1 hrun
  have heof := decompressAllTags_endless (Nat.not_lt.1 hlong) htags
  rw [heof, Bool.false_and] at hresult
  obtain ⟨rfl, -⟩ := Prod.mk.inj hresult
  exact absurd (Prod.mk.inj hb).1 Bool.false_ne_true

/-- **The round trip** of an input: the compressor makes one string of it, however the source is cut and whatever buffers the sink gives, no longer
than `MaxCompressedLength`, and stays inside its buffers; and the input comes back from it. -/
structure RoundTrip (input : Bytes) : Prop where
  fragments : ∀ i k dest, k ≤ 14 → dest.length = maxCompressedLength ((input.drop i).take kBlockSize).length →
    ∃ o, compressFragment ((input.drop i).take kBlockSize) ⟨dest, 0⟩ (List.replicate (2 ^ k) 0) (2 ^ k) = some o ∧ o.op ≤ dest.length
  compressed : ∃ compressed : Bytes, (∀ writer fresh reader, [] ∉ reader → reader.flatten = input → compress reader writer fresh = some compressed) ∧
    compressed.length ≤ maxCompressedLength input.length ∧
    (∀ dst, dst.length = input.length → RawAccepts compressed dst input) ∧
    ∀ maxSize old, input.length ≤ maxSize → StringAccepts maxSize compressed old input

theorem fragments_ok (input : Bytes) (i k : ℕ) (dest : Bytes) (hk : k ≤ 14) (hdest : dest.length = maxCompressedLength ((input.drop i).take kBlockSize).length) :
    ∃ o, compressFragment ((input.drop i).take kBlockSize) ⟨dest, 0⟩ (List.replicate (2 ^ k) 0) (2 ^ k) = some o ∧ o.op ≤ dest.length := by
  have hsmall : ((input.drop i).take kBlockSize).length ≤ 2 ^ 16 := length_take_le _ _
  obtain ⟨code, -, hsize, hrun⟩ := @compressFragment_spec _ hsmall k (by omega)
  obtain ⟨o, hfragment, ho⟩ := hrun dest (Nat.le_of_eq hdest.symm)
  have hop : o.op = 0 + code.length := ho.op
  refine ⟨o, hfragment, ?_⟩
  rw [hdest, maxCompressedLength]
  omega

theorem RoundTrip.tagsSize_lt {input : Bytes} (htrip : RoundTrip input) (hsmall : input.length < 2 ^ 32) : tagsSize input < 2 ^ 32 := by
  obtain ⟨tags, hsize, -, -, hrun⟩ := compress_spec hsmall
  obtain ⟨compressed, hcompress, -, hraw, -⟩ := htrip.compressed
  have hleft : [] ∉ leftover input ∧ (leftover input).flatten = input := by
    rw [leftover]
    by_cases hnil : input = []
    · rw [if_pos hnil, hnil]
      exact ⟨not_mem_nil, rfl⟩
    · rw [if_neg hnil]
      exact ⟨fun hmem => hnil (mem_singleton.1 hmem).symm, flatten_singleton⟩
  have hone := hcompress ⟨fun _ _ => none, fun _ _ _ h => absurd h.symm (some_ne_none _)⟩ (fun _ => 0) (leftover input) hleft.1 hleft.2
  rw [hrun _ _ _ hleft.1 hleft.2] at hone
  have haccept := hraw (List.replicate input.length 0) length_replicate
  rw [← Option.some.inj hone] at haccept
  rw [← hsize]
  exact rawAccepts_short (readUncompressedLength_encode32 hsmall tags) haccept

/-- **When the round trip works**: exactly when `CompressFragment` makes fewer than 2^32 bytes of the blocks of the input. -/
theorem roundTrip_iff {input : Bytes} (hsmall : input.length < 2 ^ 32) : RoundTrip input ↔ tagsSize input < 2 ^ 32 := by
  constructor
  · exact fun htrip => htrip.tagsSize_lt hsmall
  · intro hshort
    obtain ⟨tags, hsize, hmeans, hbound, hrun⟩ := compress_spec hsmall
    have hread := readUncompressedLength_encode32 hsmall tags
    rw [← hsize] at hshort
    have hfits := leftover_fits hshort
    have hstream : (⟨leftover tags, [], 0, false⟩ : Decompressor).stream = tags := by
      rw [leftover]
      by_cases hnil : tags = []
      · rw [if_pos hnil, hnil]
        rfl
      · rw [if_neg hnil]
        exact flatten_singleton
    have hdescribes : Describes (leftover tags) input := hmeans _ hfits rfl hstream
    have hshortLength : ¬ Overlong 5 (encode32 input.length ++ tags) := by
      rw [encode32_eq]
      exact not_overlong_varint (by omega)
    refine ⟨fragments_ok input, _, hrun, hbound, fun dst hdst => (rawAccepts_iff hread hdst).2 ⟨hdescribes, rfl⟩, fun maxSize old hmax => ?_⟩
    exact (stringAccepts_iff hread).2 ⟨hshortLength, hmax, hdescribes, rfl⟩

theorem roundTrip_short : ([1, 2, 3] : Bytes).length < 2 ^ 32 ∧ RoundTrip [1, 2, 3] := by
  have hsmall : ([1, 2, 3] : Bytes).length < 2 ^ 32 := by decide
  exact ⟨hsmall, (roundTrip_iff hsmall).2 (by decide +kernel)⟩

/-- **Every input comes back in pieces** of fewer than 2^32 bytes, however the source of the compressor and that of the decompressor are cut. -/
theorem cut_roundTrip {input : Bytes} (hsmall : input.length < 2 ^ 32) : ∃ compressed : Bytes,
    (∀ writer fresh reader, [] ∉ reader → reader.flatten = input → compress reader writer fresh = some compressed) ∧
    ∀ s dst, s.flatten = compressed → [] ∉ s → Small s → dst.length = input.length →
      ∃ fuel w, internalUncompress arrayWriter fuel s ⟨dst, 0, 0⟩ = some (true, w) ∧ w.mem = input := by
  obtain ⟨tags, -, hmeans, -, hrun⟩ := compress_spec hsmall
  refine ⟨_, hrun, fun s dst hcut hs hpieces hdst => ?_⟩
  -- the length is read as from one piece
  have hone : [] ∉ [encode32 input.length ++ tags] := by
    rw [encode32_eq, varintLoop]
    split_ifs <;> simp
  have hbytes := readUncompressedLength_stream hone
  rw [readUncompressedLength_encode32 hsmall, flatten_singleton, ← hcut, ← readUncompressedLength_stream hs] at hbytes
  obtain ⟨⟨n, r⟩, hread, hpair⟩ := map_eq_some_iff.1 hbytes.symm
  obtain ⟨rfl, hflat⟩ := Prod.mk.inj hpair
  have hstream : r.flatten = tags := by
    dsimp only at hflat
    rw [hflat, leftover]
    split_ifs with hnil
    · exact hnil.symm
    · exact flatten_singleton
  obtain ⟨hr, hrsmall, hn⟩ := readLengthLoop_left hs hpieces hread
  have hdescribes : Describes r input := hmeans _ (start_fits hr hrsmall) rfl hstream
  obtain ⟨fuel, w, hrun', hw⟩ := describes_accepted (arrayWriter_implements hn) (array_ready hdst) hread hdescribes rfl
  exact ⟨fuel, w, hrun', hw.full rfl⟩

theorem cut_roundTrip_short : ([1, 2, 3] : Bytes).length < 2 ^ 32 ∧ ∃ compressed : Bytes,
    (∀ writer fresh reader, [] ∉ reader → reader.flatten = [1, 2, 3] → compress reader writer fresh = some compressed) ∧
    ∀ s dst, s.flatten = compressed → [] ∉ s → Small s → dst.length = ([1, 2, 3] : Bytes).length →
      ∃ fuel w, internalUncompress arrayWriter fuel s ⟨dst, 0, 0⟩ = some (true, w) ∧ w.mem = [1, 2, 3] :=
  ⟨by decide, cut_roundTrip (by decide)⟩

/-- A byte with the last two bits of its place, and six of the others. -/
def mark (p : ℕ) : UInt8 := UInt8.ofNat (64 * (p % 4) + p / 4 / 64 ^ (p % 4) % 64)

def incompressible (n : ℕ) : Bytes := (List.range n).map fun p => mark (p % kBlockSize)

theorem incompressible_length (n : ℕ) : (incompressible n).length = n := by rw [incompressible, length_map, length_range]

variable {p q r : ℕ}

theorem mark_inj (h : mark p = mark q) (hr : p % 4 = r) : q % 4 = r ∧ p / 4 / 64 ^ r % 64 = q / 4 / 64 ^ r % 64 := by
  have hnat : ∀ p, (mark p).toNat = 64 * (p % 4) + p / 4 / 64 ^ (p % 4) % 64 := fun p => UInt8.toNat_ofNat_of_lt' (show _ < 256 by omega)
  have heq := congrArg UInt8.toNat h
  rw [hnat, hnat] at heq
  have hsame : p % 4 = q % 4 := by omega
  rw [← hsame, hr] at heq
  exact ⟨hsame.symm.trans hr, by omega⟩

variable {g h c : ℕ}

theorem div_add_eq {m : ℕ} (hm : 0 < m) (hg : g % m = r) (hh : h % m = r) :
    (g + c) / m = g / m + (r + c) / m ∧ (h + c) / m = h / m + (r + c) / m := by
  have hdiv : ∀ x, x % m = r → (x + c) / m = x / m + (r + c) / m := by
    intro x hx
    have hsplit : x + c = r + c + m * (x / m) := by rw [← hx, Nat.add_right_comm, Nat.mod_add_div]
    rw [hsplit, Nat.add_mul_div_left _ _ hm, Nat.add_comm]
  exact ⟨hdiv g hg, hdiv h hh⟩

theorem six_bits_cancel {x y : ℕ} (h : (x + c) % 64 = (y + c) % 64) : x % 64 = y % 64 := by omega

theorem groups_inj {a b : ℕ} (hg : g < 2 ^ 18) (hh : h < 2 ^ 18) (hlow : (g + a) / 64 ^ 0 % 64 = (h + a) / 64 ^ 0 % 64)
    (hmiddle : (g + b) / 64 ^ 1 % 64 = (h + b) / 64 ^ 1 % 64) (hhigh : (g + c) / 64 ^ 2 % 64 = (h + c) / 64 ^ 2 % 64) : g = h := by
  rw [Nat.pow_zero, Nat.div_one, Nat.div_one] at hlow
  rw [Nat.pow_one] at hmiddle
  have hu : g % 64 = h % 64 := six_bits_cancel hlow
  obtain ⟨hgb, hhb⟩ := div_add_eq (c := b) (by decide) hu rfl
  rw [hgb, hhb] at hmiddle
  have hv : g / 64 % 64 = h / 64 % 64 := six_bits_cancel hmiddle
  have huv : g % 64 ^ 2 = h % 64 ^ 2 := by rw [Nat.pow_two, Nat.mod_mul, Nat.mod_mul, hu, hv]
  obtain ⟨hgc, hhc⟩ := div_add_eq (c := c) (by decide) huv rfl
  rw [hgc, hhc] at hhigh
  have hw : g / 64 ^ 2 % 64 = h / 64 ^ 2 % 64 := six_bits_cancel hhigh
  have htop : ∀ x < 2 ^ 18, x / 64 ^ 2 % 64 = x / 64 ^ 2 := fun x hx => Nat.mod_eq_of_lt (by omega)
  rw [htop g hg, htop h hh] at hw
  rw [← Nat.mod_add_div g (64 ^ 2), ← Nat.mod_add_div h (64 ^ 2), huv, hw]

theorem marks_inj (hp : p + 4 ≤ 2 ^ 16) (hq : q + 4 ≤ 2 ^ 16) (h : ∀ k < 4, mark (p + k) = mark (q + k)) : p = q := by
  have hzero := h 0 (by decide)
  have hone := h 1 (by decide)
  have htwo := h 2 (by decide)
  have hthree := h 3 (by decide)
  -- the bits are those of the group of four bytes around a place, or of the next group
  have hgroup : ∀ {r i j : ℕ}, mark (p + i) = mark (q + i) → (p + i) % 4 = r → (p + i) / 4 = p / 4 + j → (q + i) / 4 = q / 4 + j →
      (p / 4 + j) / 64 ^ r % 64 = (q / 4 + j) / 64 ^ r % 64 := by
    intro r i j hmark hr hpj hqj
    have hbits := (mark_inj hmark hr).2
    rwa [hpj, hqj] at hbits
  have hsame : ∀ {r i : ℕ}, mark (p + i) = mark (q + i) → (p + i) % 4 = r → (q + i) % 4 = r := fun hmark hr => (mark_inj hmark hr).1
  have hplace : p % 4 = 0 ∨ p % 4 = 1 ∨ p % 4 = 2 ∨ p % 4 = 3 := by omega
  have hall : p / 4 = q / 4 ∧ p % 4 = q % 4 := by
    rcases hplace with hr | hr | hr | hr
    · have hq' := hsame hzero hr
      exact ⟨groups_inj (by omega) (by omega) (@hgroup 0 0 0 hzero (by omega) (by omega) (by omega)) (@hgroup 1 1 0 hone (by omega) (by omega) (by omega))
        (@hgroup 2 2 0 htwo (by omega) (by omega) (by omega)), hr.trans hq'.symm⟩
    · have hq' := hsame hzero hr
      rw [Nat.add_zero] at hq'
      exact ⟨groups_inj (by omega) (by omega) (@hgroup 0 3 1 hthree (by omega) (by omega) (by omega)) (@hgroup 1 0 0 hzero (by omega) (by omega) (by omega))
        (@hgroup 2 1 0 hone (by omega) (by omega) (by omega)), hr.trans hq'.symm⟩
    · have hq' := hsame hzero hr
      exact ⟨groups_inj (by omega) (by omega) (@hgroup 0 2 1 htwo (by omega) (by omega) (by omega)) (@hgroup 1 3 1 hthree (by omega) (by omega) (by omega))
        (@hgroup 2 0 0 hzero (by omega) (by omega) (by omega)), hr.trans hq'.symm⟩
    · have hq' := hsame hzero hr
      rw [Nat.add_zero] at hq'
      exact ⟨groups_inj (by omega) (by omega) (@hgroup 0 1 1 hone (by omega) (by omega) (by omega)) (@hgroup 1 2 1 htwo (by omega) (by omega) (by omega))
        (@hgroup 2 3 1 hthree (by omega) (by omega) (by omega)), hr.trans hq'.symm⟩
  omega

theorem incompressible_block {i : ℕ} (hi : i < n) (hn : n ≤ kBlockSize) : (incompressible n)[i]? = some (mark i) := by
  rw [incompressible, List.getElem?_map, List.getElem?_range hi, map_some, Nat.mod_eq_of_lt (by omega)]

theorem incompressible_take (n : ℕ) : (incompressible n).take kBlockSize = incompressible (min kBlockSize n) := by
  rw [incompressible, incompressible, ← map_take, take_range]

theorem incompressible_drop (n : ℕ) : (incompressible n).drop kBlockSize = incompressible (n - kBlockSize) := by
  refine ext_getElem? fun i => ?_
  rw [List.getElem?_drop, incompressible, incompressible, List.getElem?_map, List.getElem?_map]
  by_cases hi : i < n - kBlockSize
  · rw [List.getElem?_range hi, List.getElem?_range (by omega), map_some, map_some, Nat.add_mod_left]
  · rw [List.getElem?_eq_none (by rw [length_range]; omega), List.getElem?_eq_none (by rw [length_range]; omega)]

/-- **Without matches** the block is one literal. -/
theorem fragmentSize_incompressible (hpos : 0 < n) (hn : n ≤ kBlockSize) : fragmentSize (incompressible n) = (literalHeader n).length + n := by
  have hlen := incompressible_length n
  have hsize : kBlockSize = 2 ^ 16 := rfl
  have hunlike : ∀ {p q : ℕ}, p < q → q + 4 ≤ n → ¬ Same (incompressible n) p q 4 := by
    intro p q hlt hin hsame
    refine absurd (marks_inj (by omega) (by omega) fun k hk => ?_) (Nat.ne_of_lt hlt)
    have hbyte := hsame k hk
    rw [incompressible_block (by omega) hn, incompressible_block (by omega) hn] at hbyte
    exact Option.some.inj hbyte
  obtain ⟨k, hk, htable⟩ := getHashTable_spec n
  rw [fragmentSize, hlen, htable]
  have hmain : ∀ o : Output, (if kInputMarginBytes ≤ (incompressible n).length then
      (load32 (incompressible n) 1).bind fun bytes => mainLoop (incompressible n) ((incompressible n).length - kInputMarginBytes) (32 - k)
        ((incompressible n).length + 1) 1 (hashBytes bytes (32 - k)) 0 (List.replicate (2 ^ k) 0) o
      else some (0, o)) = some (0, o) := by
    intro o
    by_cases hlong : kInputMarginBytes ≤ (incompressible n).length
    · have hmargin : kInputMarginBytes = 15 := rfl
      have htable' : TableOk (32 - k) 1 (List.replicate (2 ^ k) 0) := by
        refine ⟨by rw [length_replicate, Nat.sub_sub_self (by omega)], fun p hp => ?_⟩
        rw [(mem_replicate.1 hp).2]
        exact Nat.zero_lt_one
      rw [if_pos hlong, load32_eq (by omega), bind_some]
      rcases @scanLoop_spec (32 - k) (incompressible n) ((incompressible n).length - kInputMarginBytes) (Nat.sub_le _ _) (by omega) (by omega)
        ((incompressible n).length + 1) 1 (hashBytes (ofLittleEndian (((incompressible n).drop 1).take 4)) (32 - k)) 32 _ htable' (hashBytes_lt _ (Nat.sub_le _ _))
        (Nat.le_refl 32) (Nat.succ_pos _) (by omega) with hscan | ⟨ip, candidate, table, -, -, hip, hback, hsame, -⟩
      · rw [mainLoop, hscan]
        rfl
      · exact absurd hsame (hunlike hback (by omega))
    · exact if_neg hlong
  obtain ⟨o, hemit, ho⟩ := @emitLiteral_appends (incompressible n) ⟨List.replicate (maxCompressedLength n) 0, 0⟩ 0 n false (by omega)
    (fun h => absurd h Bool.false_ne_true) (by omega) (by
      show 0 + n + 19 ≤ (List.replicate (maxCompressedLength n) (0 : UInt8)).length
      rw [length_replicate, maxCompressedLength]
      omega)
  have hop : o.op = 0 + _ := ho.op
  have hread := (@read_input (incompressible n) 0 n (by omega)).2
  rw [compressFragment, Nat.log2_two_pow, hmain, bind_some, if_pos (by rw [hlen]; exact hpos), hlen, Nat.sub_zero, hemit, map_some, getD_some,
    hop, Nat.zero_add, length_append, hread]

/-- **More tags than input**: three bytes more for each whole block. -/
theorem fragmentsSize_incompressible : ∀ {fuel n : ℕ}, n < fuel → n + 3 * (n / kBlockSize) ≤ fragmentsSize fuel (incompressible n) := by
  have hsize : kBlockSize = 2 ^ 16 := rfl
  intro fuel
  induction fuel with
  | zero => exact fun {n} h => absurd h (Nat.not_lt_zero n)
  | succ fuel ih =>
    intro n hfuel
    rw [fragmentsSize]
    by_cases hnil : incompressible n = []
    · have hlen := incompressible_length n
      rw [hnil, length_nil] at hlen
      rw [if_pos hnil, ← hlen]
      exact Nat.le_refl 0
    have hpos : 0 < n := by
      have hlen := length_pos_iff.2 hnil
      rwa [incompressible_length] at hlen
    have hrest := @ih (n - kBlockSize) (by omega)
    rw [if_neg hnil, incompressible_take, incompressible_drop, fragmentSize_incompressible (by omega) (Nat.min_le_left _ _)]
    by_cases hlast : n < kBlockSize
    · rw [Nat.min_eq_right (Nat.le_of_lt hlast), Nat.div_eq_of_lt hlast]
      omega
    · have hheader : (literalHeader kBlockSize).length = 3 := by decide +kernel
      have hdiv : n / kBlockSize = (n - kBlockSize) / kBlockSize + 1 := Nat.div_eq_sub_div (by omega) (by omega)
      rw [Nat.min_eq_left (Nat.not_lt.1 hlast), hheader, hdiv]
      omega

/-- The input of 2^32 - 1 bytes without matches does not come back. -/
theorem roundTrip_fails : (incompressible (2 ^ 32 - 1)).length < 2 ^ 32 ∧ ¬ RoundTrip (incompressible (2 ^ 32 - 1)) := by
  have hsmall : (incompressible (2 ^ 32 - 1)).length < 2 ^ 32 := by
    rw [incompressible_length]
    decide
  refine ⟨hsmall, fun htrip => ?_⟩
  have hfew := htrip.tagsSize_lt hsmall
  have hmany := @fragmentsSize_incompressible (2 ^ 32 - 1 + 1) (2 ^ 32 - 1) (Nat.lt_succ_self _)
  rw [tagsSize, incompressible_length] at hfew
  have hblocks : 3 * ((2 ^ 32 - 1) / kBlockSize) = 196605 := by decide
  omega

end KVStores.Snappy
