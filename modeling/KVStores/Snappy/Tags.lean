import KVStores.Snappy.Compress
import KVStores.Snappy.Stream

/-!
# What the tags of the compressor mean

The bytes that `EmitLiteral` and `EmitCopyLessThan64` write, and what the decompressor makes of them in front of any other tags.
-/

namespace KVStores.Snappy

open List Option

open Decompressor

/-- **A literal** of the stream goes to the plain writer. -/
theorem literalLoop_plain : ∀ {fuel n : ℕ} {d : Decompressor} {out : Bytes}, d.Fits → n + 1 ≤ fuel → (d.buf = [] → n + 2 ≤ fuel) → n ≤ d.stream.length →
    ∃ d', literalLoop (plainWriter anything) fuel d n out = some (true, d', out ++ d.stream.take n) ∧ d'.Fits ∧ d'.eof = d.eof ∧
      d'.stream = d.stream.drop n := by
  intro fuel
  induction fuel with
  | zero =>
    intro n d out _ hfuel
    omega
  | succ fuel ih =>
    intro n d out hd hfuel hempty hn
    have hplain : ∀ ip, (plainWriter anything).append ip out = some (true, out ++ ip) := fun _ => rfl
    rw [literalLoop]
    by_cases hmore : d.buf.length < n
    · obtain ⟨hfits, hstream, hend⟩ := hd.fetch
      have hlen := congrArg List.length hstream
      rw [length_append] at hlen
      have hne : d.fetch.buf ≠ [] := by
        intro hnil
        rw [hend hnil, length_nil] at hlen
        omega
      have hfuel' : n - d.buf.length + 1 ≤ fuel := by
        by_cases hnil : d.buf = []
        · have hfuel'' := hempty hnil
          omega
        · have hpos := length_pos_iff.2 hnil
          omega
      obtain ⟨d', hloop, hd', heof, hrest⟩ := @ih (n - d.buf.length) d.fetch (out ++ d.buf) hfits hfuel' (fun hnil => absurd hnil hne) (by omega)
      rw [if_pos hmore, hplain, bind_some, if_neg (Bool.noConfusion : ¬ true = false), if_neg hne]
      refine ⟨d', ?_, hd', heof, ?_⟩
      · rw [hloop, ← hstream, append_assoc, take_append, take_of_length_le (Nat.le_of_lt hmore)]
      · rw [hrest, ← hstream, drop_append, drop_eq_nil_of_le (Nat.le_of_lt hmore), nil_append]
    · have hin : n ≤ d.buf.length := Nat.not_lt.1 hmore
      obtain ⟨hfits, hstream⟩ := hd.advance rfl hin
      refine ⟨{ d with buf := d.buf.drop n }, ?_, hfits, rfl, hstream⟩
      rw [if_neg hmore, hplain, stream, take_append_of_le_length hin]
      rfl

/-- From the stream and what is written so far the decompressor gets to the end, and has written this then. -/
def DescribesFrom (t out final : Bytes) : Prop :=
  ∀ d : Decompressor, d.Fits → d.eof = false → d.stream = t →
    ∃ fuel d', decompressAllTags (plainWriter anything) fuel d out = some (d', final) ∧ d'.eof = true

theorem describesFrom_nil (out : Bytes) : DescribesFrom [] out out := by
  intro d hd _ hstream
  obtain ⟨b, d', hrefill, hd'⟩ := hd.maybeRefill
  obtain ⟨rfl, heof⟩ := hd'.ended hstream
  exact ⟨0, d', by rw [decompressAllTags, hrefill]; rfl, heof⟩

variable {c : UInt8}

/-- **A tag that is read** is done, and the decompressor goes on behind it. -/
theorem describesFrom_tag {t out final : Bytes} {rest t' out' : Bytes} (ht : t = c :: rest) (hextra : extraBytes c ≤ rest.length)
    (htag : ∀ d ip, d.Fits → d.stream = t → d.buf = c :: ip → extraBytes c ≤ ip.length → ∃ d', tag (plainWriter anything) d out = some (true, true, d', out') ∧
      d'.Fits ∧ d'.eof = d.eof ∧ d'.stream = t') (hnext : DescribesFrom t' out' final) : DescribesFrom t out final := by
  intro d hd heof hstream
  obtain ⟨b, d₁, hrefill, hd₁⟩ := hd.maybeRefill
  obtain ⟨heof₁, hb, hgood⟩ := hd₁.tag c rest (hstream.trans ht)
  have hb' := hb.2 hextra
  subst hb'
  obtain ⟨hsame, hlen⟩ := hgood rfl
  have hbuf : ∃ ip, d₁.buf = c :: ip ∧ extraBytes c ≤ ip.length := by
    rcases hbuf : d₁.buf with _ | ⟨c', ip⟩
    · rw [hbuf, length_nil] at hlen
      omega
    · have hcons := hsame.trans (hstream.trans ht)
      rw [stream, hbuf, cons_append] at hcons
      rw [hbuf, length_cons] at hlen
      exact ⟨ip, by rw [(List.cons.inj hcons).1], by omega⟩
  obtain ⟨ip, hbuf, hip⟩ := hbuf
  obtain ⟨d₂, htag₂, hd₂, heof₂, hstream₂⟩ := htag d₁ ip hd₁.fits (hsame.trans hstream) hbuf hip
  obtain ⟨fuel, d', hrun, hend⟩ := hnext d₂ hd₂ (heof₂.trans (heof₁.trans heof)) hstream₂
  refine ⟨fuel + 1, d', ?_, hend⟩
  have hround : round (plainWriter anything) d₁ out = refilled (true, d₂, out') := by
    rw [round, htag₂, bind_some]
    exact if_neg (Bool.noConfusion : ¬ true = false)
  rw [decompressAllTags, hrefill, bind_some, if_neg (Bool.noConfusion : ¬ true = false), tagLoop_succ, hround, ← decompressAllTags_eq]
  exact hrun

theorem lengthBytes_spec : ∀ {fuel n : ℕ}, n < 256 ^ fuel → ofLittleEndian (lengthBytes fuel n) = n ∧ ∀ k, n < 256 ^ k → (lengthBytes fuel n).length ≤ k := by
  intro fuel
  induction fuel with
  | zero =>
    intro n hn
    obtain rfl : n = 0 := by omega
    exact ⟨rfl, fun k _ => Nat.zero_le k⟩
  | succ fuel ih =>
    intro n hn
    rw [lengthBytes]
    by_cases hpos : 0 < n
    · rw [if_pos hpos]
      have hdiv : n / 2 ^ 8 < 256 ^ fuel := Nat.div_lt_of_lt_mul (by rw [Nat.mul_comm]; exact hn)
      obtain ⟨hvalue, hlen⟩ := ih hdiv
      refine ⟨?_, fun k hk => ?_⟩
      · have hbyte : (UInt8.ofNat (n % 2 ^ 8)).toNat = n % 2 ^ 8 := UInt8.toNat_ofNat_of_lt' (Nat.mod_lt _ (by decide))
        rw [ofLittleEndian, hvalue, hbyte]
        omega
      · cases k with
        | zero =>
          omega
        | succ k =>
          exact Nat.succ_le_succ (hlen k (Nat.div_lt_of_lt_mul (by rw [Nat.mul_comm]; exact hk)))
    · obtain rfl : n = 0 := by omega
      exact ⟨rfl, fun k _ => Nat.zero_le k⟩

def literalHeader (len : ℕ) : Bytes :=
  if len - 1 < 60 then [UInt8.ofNat ((len - 1) * 4)]
  else UInt8.ofNat ((59 + (lengthBytes 8 (len - 1)).length) * 4) :: lengthBytes 8 (len - 1)

variable {d : Decompressor}

theorem tag_literal {ip out : Bytes} (hbuf : d.buf = c :: ip) (hc : c.toNat % 4 = 0) :
    tag (plainWriter anything) d out = (literal (plainWriter anything) { d with buf := ip } (c.toNat / 4 + 1) out).map fun q => (q.1, true, q.2) := by
  have hplain : (plainWriter anything).tryFastAppend ip (c.toNat / 4 + 1) out = some (false, out) := rfl
  rw [tag, hbuf]
  dsimp only
  rw [if_pos hc, hplain, bind_some, if_neg Bool.false_ne_true]

theorem take_buf {ip rest : Bytes} (hbuf : d.buf = c :: ip) (hstream : d.stream = c :: rest) {k : ℕ} (hk : k ≤ ip.length) :
    ip.take k = rest.take k := by
  rw [stream, hbuf, cons_append] at hstream
  rw [← (List.cons.inj hstream).2, take_append_of_le_length hk]

/-- **A literal and what follows it.** -/
theorem describesFrom_literal {lit rest out final : Bytes} (hpos : 0 < lit.length) (hsmall : lit.length < 2 ^ 32)
    (hnext : DescribesFrom rest (out ++ lit) final) : DescribesFrom (literalHeader lit.length ++ (lit ++ rest)) out final := by
  by_cases hshort : lit.length - 1 < 60
  · have hc : (UInt8.ofNat ((lit.length - 1) * 4)).toNat = (lit.length - 1) * 4 := UInt8.toNat_ofNat_of_lt' (show _ < 256 by omega)
    have hcode : literalHeader lit.length ++ (lit ++ rest) = UInt8.ofNat ((lit.length - 1) * 4) :: (lit ++ rest) := by
      rw [literalHeader, if_pos hshort]
      rfl
    generalize UInt8.ofNat ((lit.length - 1) * 4) = c at hc hcode
    have hmod : c.toNat % 4 = 0 := by omega
    have hextra : extraBytes c = 0 := by
      rw [extraBytes_literal hmod, hc]
      omega
    refine describesFrom_tag hcode (by omega) (fun d ip hd hstream hbuf _ => ?_) hnext
    have hip : 1 ≤ d.buf.length := by
      rw [hbuf]
      exact Nat.succ_pos _
    have hdrop : ip = d.buf.drop 1 := by rw [hbuf, drop_one, tail_cons]
    obtain ⟨hfits, hbehind⟩ := hd.advance hdrop hip
    rw [hstream, hcode, drop_one, tail_cons] at hbehind
    have hn : c.toNat / 4 + 1 = lit.length := by omega
    have hroom : lit.length ≤ ({ d with buf := ip } : Decompressor).stream.length := by
      rw [hbehind, length_append]
      exact Nat.le_add_right _ _
    obtain ⟨d', hloop, hd', heof, hrest⟩ := @literalLoop_plain (lit.length + 2) lit.length { d with buf := ip } out hfits (Nat.le_succ _)
      (fun _ => Nat.le_refl _) hroom
    rw [hbehind, take_left] at hloop
    rw [hbehind, drop_left] at hrest
    refine ⟨d', ?_, hd', heof, hrest⟩
    rw [tag_literal hbuf hmod, hn, literal, if_neg (by omega), hloop]
    rfl
  · obtain ⟨hvalue, hlength⟩ := @lengthBytes_spec 8 (lit.length - 1) (by omega)
    have hk := hlength 4 (by omega)
    have hcode : literalHeader lit.length ++ (lit ++ rest) =
        UInt8.ofNat ((59 + (lengthBytes 8 (lit.length - 1)).length) * 4) :: (lengthBytes 8 (lit.length - 1) ++ (lit ++ rest)) := by
      rw [literalHeader, if_neg hshort]
      rfl
    have hne : 0 < (lengthBytes 8 (lit.length - 1)).length := by
      rw [lengthBytes, if_pos (by omega)]
      exact Nat.succ_pos _
    generalize lengthBytes 8 (lit.length - 1) = bytes at hvalue hk hcode hne
    have hc : (UInt8.ofNat ((59 + bytes.length) * 4)).toNat = (59 + bytes.length) * 4 := UInt8.toNat_ofNat_of_lt' (show _ < 256 by omega)
    generalize UInt8.ofNat ((59 + bytes.length) * 4) = c at hc hcode
    have hmod : c.toNat % 4 = 0 := by omega
    have hextra : extraBytes c = bytes.length := by
      rw [extraBytes_literal hmod, hc]
      omega
    refine describesFrom_tag hcode (by rw [hextra, length_append]; exact Nat.le_add_right _ _) (fun d ip hd hstream hbuf hip => ?_) hnext
    rw [hextra] at hip
    have htake : ip.take bytes.length = bytes := by rw [take_buf hbuf (hstream.trans hcode) hip, take_left]
    have hlen : bytes.length + 1 ≤ d.buf.length := by
      rw [hbuf]
      exact Nat.succ_le_succ hip
    have hdrop : ip.drop bytes.length = d.buf.drop (bytes.length + 1) := by rw [hbuf, drop_succ_cons]
    obtain ⟨hfits, hbehind⟩ := hd.advance hdrop hlen
    rw [hstream, hcode, drop_succ_cons, drop_left] at hbehind
    have hroom : lit.length ≤ ({ d with buf := ip.drop bytes.length } : Decompressor).stream.length := by
      rw [hbehind, length_append]
      exact Nat.le_add_right _ _
    obtain ⟨d', hloop, hd', heof, hrest⟩ := @literalLoop_plain (lit.length + 2) lit.length { d with buf := ip.drop bytes.length } out hfits (Nat.le_succ _)
      (fun _ => Nat.le_refl _) hroom
    rw [hbehind, take_left] at hloop
    rw [hbehind, drop_left] at hrest
    refine ⟨d', ?_, hd', heof, hrest⟩
    have hn : c.toNat / 4 + 1 - 60 = bytes.length := by omega
    have hsize : (ofLittleEndian bytes + 1) % 2 ^ 32 = lit.length := by
      rw [hvalue, Nat.sub_add_cancel hpos, Nat.mod_eq_of_lt hsmall]
    rw [tag_literal hbuf hmod, literal, if_pos (by omega), hn, htake, hsize, hloop]
    rfl

/-- What `EmitCopyLessThan64` writes. -/
def copyCode (offset len : ℕ) : Bytes :=
  if len < 12 ∧ offset < 2048 then [UInt8.ofNat (1 + (len - 4) * 4 + offset / 2 ^ 8 * 32), UInt8.ofNat (offset % 2 ^ 8)]
  else UInt8.ofNat (2 + (len - 1) * 4) :: littleEndian 2 offset

theorem charTable_oneByte {l h : ℕ} (hl : l < 8) (hh : h < 8) : charTable.getD (1 + l * 4 + h * 32) 0 = 2 ^ 11 + h * 2 ^ 8 + (l + 4) := by
  have h4 : (1 + l * 4 + h * 32) % 4 = 1 := by omega
  have h32 : (1 + l * 4 + h * 32) / 32 = h := by omega
  have hmid : (1 + l * 4 + h * 32) / 4 % 8 = l := by omega
  rw [getD_charTable (by omega), tableEntry, if_neg (by omega), if_pos h4, h32, hmid]

theorem charTable_twoBytes {l : ℕ} (hl : l < 64) : charTable.getD (2 + l * 4) 0 = 2 * 2 ^ 11 + (l + 1) := by
  have h4 : (2 + l * 4) % 4 = 2 := by omega
  have hmid : (2 + l * 4) / 4 = l := by omega
  rw [getD_charTable (by omega), tableEntry, if_neg (by omega), if_neg (by omega), if_pos h4, hmid]

theorem describesFrom_copyTag {c : UInt8} {bytes rest out final : Bytes} {offset len : ℕ} (hc : c.toNat % 4 ≠ 0) (hextra : extraBytes c = bytes.length)
    (hoffset : copyOffset c + ofLittleEndian bytes = offset) (hlen : tagLength c = len) (hsmall : offset < 2 ^ 32) (hpos : 0 < offset) (hin : offset ≤ out.length)
    (hnext : DescribesFrom rest (copyBack offset len out) final) : DescribesFrom (c :: (bytes ++ rest)) out final := by
  refine describesFrom_tag rfl (by rw [hextra, length_append]; exact Nat.le_add_right _ _) (fun d ip hd hstream hbuf hip => ?_) hnext
  rw [hextra] at hip
  have htake : ip.take bytes.length = bytes := by rw [take_buf hbuf hstream hip, take_left]
  have hroom : bytes.length + 1 ≤ d.buf.length := by
    rw [hbuf]
    exact Nat.succ_le_succ hip
  have hdrop : ip.drop bytes.length = d.buf.drop (bytes.length + 1) := by rw [hbuf, drop_succ_cons]
  obtain ⟨hfits, hbehind⟩ := hd.advance hdrop hroom
  rw [hstream, drop_succ_cons, drop_left] at hbehind
  refine ⟨{ d with buf := ip.drop bytes.length }, ?_, hfits, rfl, hbehind⟩
  have hself : (plainWriter anything).appendFromSelf offset len out =
      if offset = 0 ∨ out.length < offset then some (false, out) else some (true, copyBack offset len out) := rfl
  rw [tag, hbuf]
  dsimp only
  rw [if_neg hc, hextra, htake, hoffset, hlen, Nat.mod_eq_of_lt hsmall, hself, if_neg (by omega)]
  rfl

/-- **A copy and what follows it.** -/
theorem describesFrom_copy {offset len : ℕ} {rest out final : Bytes} (hlen : 4 ≤ len) (hlen' : len ≤ 64) (hpos : 0 < offset) (hin : offset ≤ out.length)
    (hsmall : offset < 2 ^ 16) (hnext : DescribesFrom rest (copyBack offset len out) final) : DescribesFrom (copyCode offset len ++ rest) out final := by
  rw [copyCode]
  by_cases hone : len < 12 ∧ offset < 2048
  · rw [if_pos hone]
    have hdiv : offset / 2 ^ 8 < 8 := by omega
    have hentry := charTable_oneByte (show len - 4 < 8 by omega) hdiv
    have hc : (UInt8.ofNat (1 + (len - 4) * 4 + offset / 2 ^ 8 * 32)).toNat = 1 + (len - 4) * 4 + offset / 2 ^ 8 * 32 :=
      UInt8.toNat_ofNat_of_lt' (show _ < 256 by omega)
    have hb : (UInt8.ofNat (offset % 2 ^ 8)).toNat = offset % 2 ^ 8 := UInt8.toNat_ofNat_of_lt' (Nat.mod_lt _ (by decide))
    have hvalue : entry (UInt8.ofNat (1 + (len - 4) * 4 + offset / 2 ^ 8 * 32)) = 2 ^ 11 + offset / 2 ^ 8 * 2 ^ 8 + len := by
      rw [entry, hc, hentry]
      omega
    refine @describesFrom_copyTag _ [UInt8.ofNat (offset % 2 ^ 8)] rest out final offset len (by omega) ?_ ?_ ?_ (by omega) hpos hin hnext
    · rw [extraBytes, hvalue]
      show _ = 1
      omega
    · rw [copyOffset, hvalue, ofLittleEndian, ofLittleEndian, hb]
      omega
    · rw [tagLength, hvalue]
      omega
  · rw [if_neg hone]
    have hentry := charTable_twoBytes (show len - 1 < 64 by omega)
    have hc : (UInt8.ofNat (2 + (len - 1) * 4)).toNat = 2 + (len - 1) * 4 := UInt8.toNat_ofNat_of_lt' (show _ < 256 by omega)
    have hvalue : entry (UInt8.ofNat (2 + (len - 1) * 4)) = 2 * 2 ^ 11 + len := by
      rw [entry, hc, hentry]
      omega
    refine @describesFrom_copyTag _ (littleEndian 2 offset) rest out final offset len (by omega) ?_ ?_ ?_ (by omega) hpos hin hnext
    · rw [extraBytes, hvalue]
      show _ = 2
      omega
    · rw [copyOffset, hvalue, ofLittleEndian_littleEndian_of_lt (by omega)]
      omega
    · rw [tagLength, hvalue]
      omega

end KVStores.Snappy
