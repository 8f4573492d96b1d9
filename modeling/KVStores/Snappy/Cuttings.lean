import KVStores.Snappy.DecodersAgree
import KVStores.Snappy.Tags

/-!
# Sources cut in any way

What the decompressor makes of a source depends on the bytes of the source only, as long as no fragment is so long that the `uint32`s
which count the bytes of a fragment overflow. The tags of a string of bytes have a meaning of their own, `Decodes`, without buffers and
fragments; the decompressor with its buffers follows it.
-/

namespace KVStores.Snappy

open List Option

open CopyBack Decompressor

/-- `ReadUncompressedLength` over bytes. -/
@[grind =] def readLengthBytes : ℕ → ℕ → ℕ → Bytes → Option (ℕ × Bytes)
  | 0, _, _, _ => none
  | _ + 1, _, _, [] => none
  | fuel + 1, shift, result, c :: t =>
    if 32 ≤ shift then none
    else
      let result := (result + c.toNat % 128 * 2 ^ shift) % 2 ^ 32
      if c < 128 then some (result, t) else readLengthBytes fuel (shift + 7) result t

variable {shift result : ℕ} {s : Source}

theorem readLengthLoop_stream {fuel : ℕ} (hs : [] ∉ s) :
    (readLengthLoop fuel shift result s).map (fun p => (p.1, p.2.flatten)) = readLengthBytes fuel shift result s.flatten := by
  induction fuel generalizing shift result s with
  | zero => rfl
  | succ fuel ih =>
    rw [readLengthLoop]
    by_cases hend : peek s = []
    · rw [peek_eq_nil hs hend]
      by_cases hshift : 32 ≤ shift
      · rw [if_pos hshift]
        rfl
      · rw [if_neg hshift]
        rfl
    obtain ⟨c, f, hpeek⟩ := exists_cons_of_ne_nil hend
    have hflat : s.flatten = c :: (skip 1 s).flatten := by
      rw [skip_flatten, peek_flatten s, hpeek]
      rfl
    rw [hpeek, hflat, readLengthBytes]
    by_cases hshift : 32 ≤ shift
    · rw [if_pos hshift, if_pos hshift]
      rfl
    rw [if_neg hshift, if_neg hshift]
    dsimp only
    by_cases hlast : c < 128
    · rw [if_pos hlast, if_pos hlast]
      rfl
    · rw [if_neg hlast, if_neg hlast]
      exact ih (skip_nonempty hs)

theorem readLengthLoop_left {fuel n : ℕ} {s' : Source} (hs : [] ∉ s) (hsmall : Small s)
    (h : readLengthLoop fuel shift result s = some (n, s')) : [] ∉ s' ∧ Small s' ∧ n < 2 ^ 32 := by
  induction fuel generalizing shift result s with
  | zero => cases h
  | succ fuel ih =>
    rw [readLengthLoop] at h
    by_cases hshift : 32 ≤ shift
    · rw [if_pos hshift] at h
      cases h
    rw [if_neg hshift] at h
    cases hpeek : peek s with
    | nil =>
      rw [hpeek] at h
      cases h
    | cons c f =>
      rw [hpeek] at h
      dsimp only at h
      by_cases hlast : c < 128
      · rw [if_pos hlast] at h
        cases h
        exact ⟨skip_nonempty hs, hsmall.skip, Nat.mod_lt _ (Nat.two_pow_pos 32)⟩
      · rw [if_neg hlast] at h
        exact ih (skip_nonempty hs) hsmall.skip h

/-- A tag with the bytes behind it, after what has been written: the bytes that are left, and what has been written then. -/
def decodeTag (c : UInt8) (rest out : Bytes) : Option (Bytes × Bytes) :=
  let trailer := ofLittleEndian (rest.take (extraBytes c))
  let rest := rest.drop (extraBytes c)
  if c.toNat % 4 = 0 then
    let n := if extraBytes c = 0 then c.toNat / 4 + 1 else (trailer + 1) % 2 ^ 32
    if n ≤ rest.length then some (rest.drop n, out ++ rest.take n) else none
  else
    let offset := (copyOffset c + trailer) % 2 ^ 32
    if offset = 0 ∨ out.length < offset then none else some (rest, copyBack offset (tagLength c) out)

/-- Tags up to the end: what has been written then. -/
inductive Decodes : Bytes → Bytes → Bytes → Prop
  | nil {out : Bytes} : Decodes [] out out
  | tag {c : UInt8} {rest t out out' final : Bytes} (hextra : extraBytes c ≤ rest.length) (h : decodeTag c rest out = some (t, out'))
      (hs : Decodes t out' final) : Decodes (c :: rest) out final

variable {a b : Bytes}

theorem Decodes.unique {t out : Bytes} (ha : Decodes t out a) (hb : Decodes t out b) : a = b := by
  induction ha generalizing b with
  | nil =>
    cases hb
    rfl
  | tag _ h _ ih =>
    cases hb with
    | tag _ h' hs' =>
      obtain ⟨rfl, rfl⟩ := Prod.mk.inj (Option.some.inj (h.symm.trans h'))
      exact ih hs'

variable {d d' : Decompressor} {c : UInt8} {ip rest t out out' final : Bytes}

/-- **A literal that is too long**: the bytes that there are are written, and then the function returns. -/
theorem literalLoop_short {fuel n : ℕ} (hd : d.Fits) (hfuel : n + 1 ≤ fuel) (hempty : d.buf = [] → n + 2 ≤ fuel) (hn : d.stream.length < n) :
    ∃ d' out', literalLoop (plainWriter anything) fuel d n out = some (false, d', out') ∧ d'.eof = d.eof := by
  induction fuel generalizing n d out with
  | zero => omega
  | succ fuel ih =>
    have hplain : ∀ ip, (plainWriter anything).append ip out = some (true, out ++ ip) := fun _ => rfl
    have hmore : d.buf.length < n := by
      rw [stream, length_append] at hn
      omega
    obtain ⟨hfits, hstream, -⟩ := hd.fetch
    have hlen := congrArg List.length hstream
    rw [length_append] at hlen
    rw [literalLoop, if_pos hmore, hplain, bind_some, if_neg (Bool.noConfusion : ¬ true = false)]
    by_cases hend : d.fetch.buf = []
    · rw [if_pos hend]
      exact ⟨_, _, rfl, rfl⟩
    rw [if_neg hend]
    have hfuel' : n - d.buf.length + 1 ≤ fuel := by
      by_cases hnil : d.buf = []
      · have hfuel'' := hempty hnil
        omega
      · have hpos := length_pos_iff.mpr hnil
        omega
    obtain ⟨d', out', hloop, heof⟩ := @ih d.fetch (out ++ d.buf) (n - d.buf.length) hfits hfuel' (fun hnil => absurd hnil hend) (by omega)
    exact ⟨d', out', hloop, heof⟩

/-- What a call leaves, after the bytes of the tag and of what belongs to it. -/
def Follows (d : Decompressor) (r : Option (Bytes × Bytes)) (go : Bool) (d' : Decompressor) (out' : Bytes) : Prop :=
  d'.eof = d.eof ∧ (r = none → go = false) ∧ ∀ p, r = some p → go = true ∧ d'.Fits ∧ d'.stream = p.1 ∧ out' = p.2

theorem literalLoop_follows {n : ℕ} (hd : d.Fits) (out : Bytes) :
    ∃ go d' out', literalLoop (plainWriter anything) (n + 2) d n out = some (go, d', out') ∧
      Follows d (if n ≤ d.stream.length then some (d.stream.drop n, out ++ d.stream.take n) else none) go d' out' := by
  by_cases hn : n ≤ d.stream.length
  · obtain ⟨d', hloop, hd', heof, hstream⟩ := @literalLoop_plain (n + 2) n d out hd (Nat.le_succ _) (fun _ => Nat.le_refl _) hn
    rw [if_pos hn]
    refine ⟨true, d', _, hloop, heof, fun hnone => (by cases hnone), fun p hp => ?_⟩
    cases hp
    exact ⟨rfl, hd', hstream, rfl⟩
  · obtain ⟨d', out', hloop, heof⟩ := @literalLoop_short d out (n + 2) n hd (Nat.le_succ _) (fun _ => Nat.le_refl _) (not_le.mp hn)
    rw [if_neg hn]
    exact ⟨false, d', out', hloop, heof, fun _ => rfl, fun p hp => by cases hp⟩

/-- **A tag** of the decompressor is the tag of the bytes, for any fragments. -/
theorem tag_plain (hd : d.Fits) (hbuf : d.buf = c :: ip) (hstream : d.stream = c :: rest) (hextra : extraBytes c ≤ ip.length) (out : Bytes) :
    ∃ go d' out', tag (plainWriter anything) d out = some (go, true, d', out') ∧ Follows d (decodeTag c rest out) go d' out' := by
  have htake := take_buf hbuf hstream hextra
  have hlen : extraBytes c + 1 ≤ d.buf.length := by
    rw [hbuf]
    exact Nat.succ_le_succ hextra
  have hdrop : ip.drop (extraBytes c) = d.buf.drop (extraBytes c + 1) := by rw [hbuf, drop_succ_cons]
  obtain ⟨hfits, hbehind⟩ := hd.advance hdrop hlen
  rw [hstream, drop_succ_cons] at hbehind
  by_cases hliteral : c.toNat % 4 = 0
  · have hextraLit := extraBytes_literal hliteral
    rw [tag_literal hbuf hliteral, literal, decodeTag]
    rw [if_pos hliteral, ← htake]
    by_cases hlong : 61 ≤ c.toNat / 4 + 1
    · obtain ⟨go, d', out', hloop, hfollows⟩ := literalLoop_follows (n := (ofLittleEndian (ip.take (extraBytes c)) + 1) % 2 ^ 32) hfits out
      rw [hbehind] at hfollows
      rw [if_pos hlong, ← hextraLit, hloop, if_neg (show ¬ extraBytes c = 0 by omega)]
      exact ⟨go, d', out', rfl, hfollows⟩
    · have hzero : extraBytes c = 0 := by omega
      rw [hzero, drop_zero] at hfits hbehind
      obtain ⟨go, d', out', hloop, hfollows⟩ := literalLoop_follows (n := c.toNat / 4 + 1) hfits out
      rw [hbehind] at hfollows
      rw [if_neg hlong, hloop, if_pos hzero, hzero]
      exact ⟨go, d', out', rfl, hfollows⟩
  · have htag : tag (plainWriter anything) d out =
        ((plainWriter anything).appendFromSelf ((copyOffset c + ofLittleEndian (ip.take (extraBytes c))) % 2 ^ 32) (tagLength c) out).map fun p =>
          (p.1, true, { d with buf := ip.drop (extraBytes c) }, p.2) := by
      rw [tag, hbuf]
      dsimp only
      rw [if_neg hliteral]
    rw [htag, decodeTag]
    dsimp only
    rw [if_neg hliteral, ← htake]
    generalize (copyOffset c + ofLittleEndian (ip.take (extraBytes c))) % 2 ^ 32 = offset
    show ∃ go d' out', Option.map _ (if offset = 0 ∨ out.length < offset then some (false, out)
      else some (anything (out.length + tagLength c), copyBack offset (tagLength c) out)) = _ ∧ _
    by_cases hbad : offset = 0 ∨ out.length < offset
    · rw [if_pos hbad, if_pos hbad]
      exact ⟨false, _, out, rfl, rfl, fun _ => rfl, fun p hp => by cases hp⟩
    · rw [if_neg hbad, if_neg hbad]
      refine ⟨true, _, _, rfl, rfl, fun hnone => (by cases hnone), fun p hp => ?_⟩
      cases hp
      exact ⟨rfl, hfits, hbehind, rfl⟩

def Drained (d : Decompressor) : Prop := skip d.peeked d.reader = []

theorem maybeRefill_drained (hd : d.Fits) (hnil : d.stream = []) {b : Bool} (h : d.maybeRefill = some (b, d')) : Drained d' := by
  have hbuf : d.buf = [] := eq_nil_of_length_eq_zero (by
    have hlen := congrArg List.length hnil
    rw [stream, length_append, length_nil] at hlen
    omega)
  have hreader : skip d.peeked d.reader = [] := by
    refine peek_eq_nil (skip_nonempty hd.nonempty) (eq_nil_of_length_eq_zero ?_)
    have hlen := congrArg List.length (peek_flatten (skip d.peeked d.reader))
    rw [stream, hbuf, nil_append, ← skip_flatten] at hnil
    rw [hnil, length_append, length_nil] at hlen
    omega
  have hfetch : d.fetch = ⟨[], [], 0, d.eof⟩ := by
    rw [fetch, hreader]
    rfl
  rw [maybeRefill, hbuf, if_pos (by decide), refillTag, hbuf, if_pos rfl, hfetch] at h
  cases h
  rfl

/-- **The loop** to the end of the bytes. -/
theorem tagLoop_decodes {fuel : ℕ} (hd : d.Ready) (heof : d.eof = false) (h : tagLoop (plainWriter anything) fuel d out = some (d', final))
    (hend : d'.eof = true) : Decodes d.stream out final ∧ Drained d' := by
  induction fuel generalizing d out with
  | zero => cases h
  | succ fuel ih =>
    obtain ⟨hfits, c, rest, hstream, hlen⟩ := hd
    obtain ⟨ip, hbuf⟩ : ∃ ip, d.buf = c :: ip := by
      cases hb : d.buf with
      | nil =>
        rw [hb, length_nil] at hlen
        omega
      | cons c' ip =>
        rw [stream, hb, cons_append] at hstream
        exact ⟨ip, by rw [(List.cons.inj hstream).1]⟩
    have hextra : extraBytes c ≤ ip.length := by
      rw [hbuf, length_cons] at hlen
      omega
    have hrest : extraBytes c ≤ rest.length := by
      have hall := congrArg List.length hstream
      rw [stream, hbuf, length_append, length_cons, length_cons] at hall
      omega
    obtain ⟨go, d₁, out₁, htag, heof₁, hnone, hsome⟩ := tag_plain hfits hbuf hstream hextra out
    have hround : round (plainWriter anything) d out = refilled (go, d₁, out₁) := by
      rw [round, htag, bind_some]
      exact if_neg Bool.noConfusion
    rw [tagLoop_succ, hround] at h
    cases hdecode : decodeTag c rest out with
    | none =>
      rw [hnone hdecode, refilled, if_pos rfl, bind_some, if_pos rfl] at h
      cases h
      rw [heof₁, heof] at hend
      cases hend
    | some p =>
      obtain ⟨rfl, hfits₁, hstream₁, rfl⟩ := hsome p hdecode
      obtain ⟨b, d₂, hrefill, hd₂⟩ := hfits₁.maybeRefill
      rw [refilled, if_neg (Bool.noConfusion : ¬ true = false)] at h
      rw [hrefill, map_some, bind_some] at h
      dsimp only at h
      rw [hstream]
      cases hs : d₁.stream with
      | nil =>
        obtain ⟨hb, -⟩ := hd₂.ended hs
        rw [if_pos hb] at h
        cases h
        rw [hs] at hstream₁
        exact ⟨.tag hrest hdecode (hstream₁ ▸ .nil), maybeRefill_drained hfits₁ hs hrefill⟩
      | cons c' rest' =>
        obtain ⟨heof₂, -, hready⟩ := hd₂.tag c' rest' hs
        by_cases hb : b = false
        · rw [if_pos hb] at h
          cases h
          rw [heof₂, heof₁, heof] at hend
          cases hend
        · have hb' : b = true := Bool.not_eq_false _ ▸ hb
          obtain ⟨hsame, hlen'⟩ := hready hb'
          rw [if_neg hb] at h
          obtain ⟨hdecodes, hdrained⟩ := ih ⟨hd₂.fits, c', rest', hsame.trans hs, hlen'⟩ (heof₂.trans (heof₁.trans heof)) h
          rw [hsame, hstream₁] at hdecodes
          exact ⟨.tag hrest hdecode hdecodes, hdrained⟩

theorem decodes_of_run {fuel : ℕ} (hd : d.Fits) (heof : d.eof = false) (h : decompressAllTags (plainWriter anything) fuel d out = some (d', final))
    (hend : d'.eof = true) : Decodes d.stream out final ∧ Drained d' := by
  obtain ⟨b, d₁, hrefill, hd₁⟩ := hd.maybeRefill
  rw [decompressAllTags, hrefill, bind_some] at h
  cases hs : d.stream with
  | nil =>
    rw [if_pos (hd₁.ended hs).1] at h
    cases h
    exact ⟨.nil, maybeRefill_drained hd hs hrefill⟩
  | cons c rest =>
    obtain ⟨heof₁, -, hready⟩ := hd₁.tag c rest hs
    by_cases hb : b = false
    · rw [if_pos hb] at h
      cases h
      rw [heof₁, heof] at hend
      cases hend
    · obtain ⟨hsame, hlen⟩ := hready (Bool.not_eq_false _ ▸ hb)
      rw [if_neg hb] at h
      have hrun := tagLoop_decodes ⟨hd₁.fits, c, rest, hsame.trans hs, hlen⟩ (heof₁.trans heof) h hend
      rwa [hsame, hs] at hrun

theorem describesFrom_of_decodes (h : Decodes t out final) : DescribesFrom t out final := by
  induction h with
  | nil => exact describesFrom_nil _
  | tag hextra hdecode _ ih =>
    refine describesFrom_tag rfl hextra (fun d ip hd hstream hbuf hip => ?_) ih
    obtain ⟨go, d', out', htag, heof, -, hsome⟩ := tag_plain hd hbuf hstream hip _
    obtain ⟨rfl, hfits, hrest, rfl⟩ := hsome _ hdecode
    exact ⟨d', htag, hfits, heof, hrest⟩

theorem start_fits (hs : [] ∉ s) (hsmall : Small s) : (⟨s, [], 0, false⟩ : Decompressor).Fits := ⟨hs, hsmall, Nat.two_pow_pos 32⟩

theorem start_stream (s : Source) : (⟨s, [], 0, false⟩ : Decompressor).stream = s.flatten := rfl

theorem describes_iff (hs : [] ∉ s) (hsmall : Small s) : Describes s out ↔ Decodes s.flatten [] out := by
  constructor
  · rintro ⟨fuel, d, hrun, hend⟩
    exact (decodes_of_run (start_fits hs hsmall) rfl hrun hend).1
  · intro h
    exact describesFrom_of_decodes h _ (start_fits hs hsmall) rfl (start_stream s)

section
variable {σ : Type} {W : Writer σ} {w w' : σ}

/-- The states at the head of the loop of `DecompressAllTags`. -/
inductive Reaches (W : Writer σ) (d : Decompressor) (w : σ) : Decompressor → σ → Prop
  | start {d' : Decompressor} {w' : σ} (h : refilled (true, d, w) = some (true, d', w')) : Reaches W d w d' w'
  | round {d₁ d₂ : Decompressor} {w₁ w₂ : σ} (h : Reaches W d w d₁ w₁) (hround : Snappy.round W d₁ w₁ = some (true, d₂, w₂)) : Reaches W d w d₂ w₂

/-- `LittleEndian::Load32` behind a tag stays inside the fragment, or `ip_` is `scratch_`: `peeked_` is 0 there, and nowhere else when a fragment is
shown. -/
def Loads (d : Decompressor) : Prop := kMaximumTagLength ≤ d.buf.length ∨ d.peeked = 0

theorem refillAt_loads (h : d.refillAt c = some (true, d')) : Loads d' := by
  rw [refillAt] at h
  by_cases hneed : d.buf.length % 2 ^ 32 < extraBytes c + 1
  · rw [if_pos hneed] at h
    obtain ⟨p, -, hp⟩ := map_eq_some_iff.mp h
    rw [← (Prod.mk.inj hp).2]
    exact Or.inr rfl
  rw [if_neg hneed] at h
  by_cases hscratch : d.buf.length % 2 ^ 32 < kMaximumTagLength
  · rw [if_pos hscratch] at h
    cases h
    exact Or.inr rfl
  · rw [if_neg hscratch] at h
    cases h
    exact Or.inl ((not_lt.mp hscratch).trans (Nat.mod_le _ _))

theorem maybeRefill_loads (h : d.maybeRefill = some (true, d')) : Loads d' := by
  rw [maybeRefill] at h
  by_cases hshort : d.buf.length < kMaximumTagLength
  · rw [if_pos hshort, refillTag] at h
    generalize (if d.buf = [] then d.fetch else d) = e at h
    cases hbuf : e.buf with
    | nil =>
      rw [hbuf] at h
      cases h
    | cons c ip =>
      rw [hbuf] at h
      exact refillAt_loads h
  · rw [if_neg hshort] at h
    cases h
    exact Or.inl (not_lt.mp hshort)

theorem refilled_loads {go : Bool} (h : refilled (go, d, w) = some (true, d', w')) : Loads d' := by
  rw [refilled] at h
  by_cases hgo : go = false
  · rw [if_pos hgo] at h
    cases h
    cases hgo
  · rw [if_neg hgo] at h
    obtain ⟨q, hrefill, hq⟩ := map_eq_some_iff.mp h
    obtain ⟨hb, hrest⟩ := Prod.mk.inj hq
    obtain ⟨hd, -⟩ := Prod.mk.inj hrest
    have hq' : q = (true, d') := Prod.ext hb hd
    rw [hq'] at hrefill
    exact maybeRefill_loads hrefill

theorem bind_refilled_loads {x : Option (Bool × Decompressor × σ)} (h : x.bind refilled = some (true, d', w')) : Loads d' := by
  obtain ⟨⟨go, d, w⟩, -, hrefill⟩ := bind_eq_some_iff.mp h
  exact refilled_loads hrefill

variable {fits : ℕ → Bool}

theorem plain_round_loads (h : round (plainWriter fits) d out = some (true, d', out')) : Loads d' := by
  rw [round, tag] at h
  cases hbuf : d.buf with
  | nil =>
    rw [hbuf] at h
    cases h
  | cons c ip =>
    rw [hbuf] at h
    dsimp only at h
    by_cases hliteral : c.toNat % 4 = 0
    · have hplain : (plainWriter fits).tryFastAppend ip (c.toNat / 4 + 1) out = some (false, out) := rfl
      rw [if_pos hliteral, hplain, bind_some, if_neg Bool.false_ne_true, bind_flag] at h
      exact bind_refilled_loads h
    · rw [if_neg hliteral, bind_copied] at h
      exact bind_refilled_loads h

theorem Reaches.loads_plain (h : Reaches (plainWriter fits) d out d' out') : Loads d' := by
  cases h with
  | start h => exact refilled_loads h
  | round _ hround => exact plain_round_loads hround

variable {limit : ℕ} {R : Bytes → σ → Prop}

theorem Agrees.some_go {x : Option (Bool × Decompressor × Bytes)} (h : Agrees R x (some (true, d', w'))) :
    ∃ out', x = some (true, d', out') ∧ R out' w' ∧ d'.eof = false := by
  cases x with
  | none => exact h.elim
  | some p =>
    obtain ⟨go, d, out⟩ := p
    obtain ⟨hgo, hd, heof, hR⟩ := h
    dsimp only at hgo hd heof hR
    subst hgo hd
    exact ⟨out, rfl, hR (Or.inl rfl), heof rfl⟩

theorem Reaches.agrees (hW : Implements limit W R) (hR : R out w) (heof : d.eof = false) (h : Reaches W d w d' w') :
    ∃ out', Reaches (plainWriter (upTo limit)) d out d' out' ∧ R out' w' ∧ d'.eof = false := by
  induction h with
  | start h =>
    have hagrees : Agrees R (refilled (true, d, out)) (refilled (true, d, w)) := (Agrees.go hR heof).refilled
    rw [h] at hagrees
    obtain ⟨out', hplain, hR', heof'⟩ := hagrees.some_go
    exact ⟨out', .start hplain, hR', heof'⟩
  | round _ hround ih =>
    obtain ⟨out₁, hreach, hR₁, heof₁⟩ := ih
    have hagrees := round_agrees hW hR₁ heof₁
    rw [hround] at hagrees
    obtain ⟨out', hplain, hR', heof'⟩ := hagrees.some_go
    exact ⟨out', .round hreach hplain, hR', heof'⟩

/-- **Nothing behind the input is read**: where a tag is read, four bytes behind it can be. -/
theorem Reaches.loads (hW : Implements limit W R) (hR : R out w) (heof : d.eof = false) (h : Reaches W d w d' w') : Loads d' := by
  obtain ⟨out', hreach, -⟩ := h.agrees hW hR heof
  exact hreach.loads_plain

/-- What is left of the source when `InternalUncompress` returns: `~SnappyDecompressor` skips the bytes that have been peeked at. -/
def sourceLeft (W : Writer σ) (fuel : ℕ) (r : Source) (w : σ) : Option Source :=
  (readUncompressedLength r).bind fun p => (decompressAllTags W fuel ⟨p.2, [], 0, false⟩ (W.setExpectedLength p.1 w)).map fun q => skip q.1.peeked q.1.reader

end

/-- `InternalUncompress` of a source into an array of the announced length: it returns, without a fault, and accepts when the verdict is a string; this
is in the array then, and nothing is left of the source. At the head of its loop the bytes that are loaded can be read. -/
structure Judged (verdict : Option Bytes) (s : Source) (dst : Bytes) : Prop where
  returns : ∃ fuel w, internalUncompress arrayWriter fuel s ⟨dst, 0, 0⟩ = some (verdict.isSome, w) ∧
    ∀ out, verdict = some out → w.mem = out ∧ sourceLeft arrayWriter fuel s ⟨dst, 0, 0⟩ = some []
  loads : ∀ n r d w, readUncompressedLength s = some (n, r) → Reaches arrayWriter ⟨r, [], 0, false⟩ (arrayWriter.setExpectedLength n ⟨dst, 0, 0⟩) d w →
    Loads d

theorem readUncompressedLength_stream (hs : [] ∉ s) :
    (readUncompressedLength s).map (fun p => (p.1, p.2.flatten)) = readLengthBytes 6 0 0 s.flatten := readLengthLoop_stream hs

theorem announcedLength_flatten {n : ℕ} (h : readLengthBytes 6 0 0 t = some (n, rest)) : announcedLength t = n := by
  have ht : [] ∉ [t] := by
    intro hmem
    rw [← mem_singleton.mp hmem] at h
    cases h
  have hread := readUncompressedLength_stream ht
  rw [flatten_singleton, h] at hread
  obtain ⟨p, hp, hpair⟩ := map_eq_some_iff.mp hread
  rw [announcedLength, hp]
  exact congrArg Prod.fst hpair

def Means (data out : Bytes) : Prop := ∃ n rest, readLengthBytes 6 0 0 data = some (n, rest) ∧ Decodes rest [] out ∧ out.length = n

theorem Means.unique (ha : Means t a) (hb : Means t b) : a = b := by
  obtain ⟨n, rest, hread, hdecodes, -⟩ := ha
  obtain ⟨n', rest', hread', hdecodes', -⟩ := hb
  obtain ⟨-, rfl⟩ := Prod.mk.inj (Option.some.inj (hread.symm.trans hread'))
  exact hdecodes.unique hdecodes'

open Classical in
noncomputable def meaning (data : Bytes) : Option Bytes := if h : ∃ out, Means data out then some h.choose else none

theorem meaning_eq_some : meaning t = some out ↔ Means t out := by
  rw [meaning]
  by_cases h : ∃ out, Means t out
  · rw [dif_pos h, some_inj]
    exact ⟨fun heq => heq ▸ h.choose_spec, fun hmeans => h.choose_spec.unique hmeans⟩
  · rw [dif_neg h]
    exact iff_of_false (fun hnone => by cases hnone) fun hmeans => h ⟨out, hmeans⟩

variable {r : Source}

theorem read_flatten {n : ℕ} (hs : [] ∉ s) (hread : readUncompressedLength s = some (n, r)) :
    readLengthBytes 6 0 0 s.flatten = some (n, r.flatten) := by
  rw [← readUncompressedLength_stream hs, hread]
  rfl

/-- **What is accepted**, for any cutting. -/
theorem accepted_means {n fuel : ℕ} {dst : Bytes} {w : ArrayWriter} (hs : [] ∉ s) (hsmall : Small s)
    (hread : readUncompressedLength s = some (n, r)) (hdst : dst.length = n) (h : internalUncompress arrayWriter fuel s ⟨dst, 0, 0⟩ = some (true, w)) :
    Means s.flatten w.mem ∧ sourceLeft arrayWriter fuel s ⟨dst, 0, 0⟩ = some [] := by
  obtain ⟨hr, hrsmall, hn⟩ := readLengthLoop_left hs hsmall hread
  obtain ⟨d, out, hrun, hplain, heof, hlen, hhas⟩ := accepted_run (arrayWriter_implements hn) (array_ready hdst) hread h
  obtain ⟨hdecodes, hdrained⟩ := decodes_of_run (start_fits hr hrsmall) rfl hplain heof
  rw [hhas.full hlen]
  refine ⟨⟨n, r.flatten, read_flatten hs hread, hdecodes, hlen⟩, ?_⟩
  rw [sourceLeft, hread, bind_some]
  rw [hrun, map_some]
  exact congrArg some hdrained

/-- **One verdict for every way to cut the bytes**, and whatever the array holds: the same bytes are accepted with the same output, nothing is left of
the source then, the call returns, and nothing outside the input and the array is touched. -/
theorem cuttings (data : Bytes) : ∃ verdict : Option Bytes, ∀ (s : Source) (dst : Bytes), s.flatten = data → [] ∉ s → Small s →
    dst.length = announcedLength data → Judged verdict s dst := by
  refine ⟨meaning data, fun s dst hdata hs hsmall hdst => ?_⟩
  subst hdata
  cases hread : readUncompressedLength s with
  | none =>
    have hnone : meaning s.flatten = none := by
      refine eq_none_iff_forall_ne_some.mpr fun out hout => ?_
      obtain ⟨n, rest, hlength, -⟩ := meaning_eq_some.mp hout
      rw [← readUncompressedLength_stream hs, hread] at hlength
      cases hlength
    refine ⟨⟨0, ⟨dst, 0, 0⟩, ?_, fun out hout => ?_⟩, fun n r d w h => ?_⟩
    · rw [internalUncompress, hread, hnone]
      rfl
    · rw [hnone] at hout
      cases hout
    · rw [hread] at h
      cases h
  | some p =>
    obtain ⟨n, r⟩ := p
    obtain ⟨hr, hrsmall, hn⟩ := readLengthLoop_left hs hsmall hread
    have hbytes := read_flatten hs hread
    rw [announcedLength_flatten hbytes] at hdst
    have hready : ArrayWriter.Has n [] (arrayWriter.setExpectedLength n ⟨dst, 0, 0⟩) := array_ready hdst
    refine ⟨?_, fun n' r' d w hread' hreach => ?_⟩
    · cases hmeaning : meaning s.flatten with
      | some out =>
        obtain ⟨n', rest, hbytes', hdecodes, hlen⟩ := meaning_eq_some.mp hmeaning
        obtain ⟨rfl, rfl⟩ := Prod.mk.inj (Option.some.inj (hbytes.symm.trans hbytes'))
        obtain ⟨fuel, w, hrun, -⟩ := describes_accepted (arrayWriter_implements hn) hready hread ((describes_iff hr hrsmall).mpr hdecodes) hlen
        obtain ⟨hmeans, hleft⟩ := accepted_means hs hsmall hread hdst hrun
        refine ⟨fuel, w, hrun, fun out' hout => ⟨?_, hleft⟩⟩
        exact hmeans.unique (meaning_eq_some.mp (hmeaning.trans hout))
      | none =>
        obtain ⟨fuel, ⟨ok, w⟩, hrun⟩ := implements_returns (arrayWriter_implements hn) hready hread (start_fits hr hrsmall)
        cases ok with
        | false => exact ⟨fuel, w, hrun, fun out hout => by cases hout⟩
        | true =>
          have hmeans := (accepted_means hs hsmall hread hdst hrun).1
          rw [meaning_eq_some.mpr hmeans] at hmeaning
          cases hmeaning
    · obtain ⟨rfl, rfl⟩ := Prod.mk.inj (Option.some.inj (hread.symm.trans hread'))
      exact hreach.loads (arrayWriter_implements hn) hready rfl

/-- **What is left when the bytes are refused**: a pattern that is expanded takes bytes with it that have not been produced, so another place of the
array has what was at place 1 before; and a literal that does not fit is written as far as the fragments go. -/
theorem refused_output : (∃ a b, rawUncompress 9 [20, 0, 97, 1, 1] (List.replicate 20 0) = some (false, a) ∧
      rawUncompress 9 [20, 0, 97, 1, 1] ((List.replicate 20 0).set 1 255) = some (false, b) ∧ a[8]? ≠ b[8]?) ∧
    ∃ a b : ArrayWriter, internalUncompress arrayWriter 9 [[2, 8, 97, 98, 99]] ⟨[0, 0], 0, 0⟩ = some (false, a) ∧
      internalUncompress arrayWriter 9 [[2, 8], [97], [98], [99]] ⟨[0, 0], 0, 0⟩ = some (false, b) ∧ a.mem ≠ b.mem := by
  refine ⟨⟨_, _, rfl, rfl, by decide⟩, _, _, rfl, rfl, by decide⟩

end KVStores.Snappy
