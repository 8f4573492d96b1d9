import Mathlib.Tactic.IntervalCases
import KVStores.Snappy.IOVec

/-!
# The loop of the decompressor

The loop of `DecompressAllTags` reads the same tags whatever its writer, so a writer that does what the plain one does gets the
same result.
-/

namespace KVStores.Snappy

open List Option

variable {σ : Type} {W : Writer σ}

/-- What the table holds: a literal, whose length may be in up to four bytes behind the tag, and copies with offsets of two sizes and of four
bytes. -/
def tableEntry (c : ℕ) : ℕ :=
  if c % 4 = 0 then if c / 4 < 60 then c / 4 + 1 else (c / 4 - 59) * 2 ^ 11 + 1
  else if c % 4 = 1 then 2 ^ 11 + c / 32 * 2 ^ 8 + (c / 4 % 8 + 4)
  else if c % 4 = 2 then 2 * 2 ^ 11 + (c / 4 + 1)
  else 4 * 2 ^ 11 + (c / 4 + 1)

theorem charTable_eq : charTable = (List.range 256).map tableEntry := by decide +kernel

theorem getD_charTable {c : ℕ} (hc : c < 256) : charTable.getD c 0 = tableEntry c := by
  rw [charTable_eq, getD_eq_getElem?_getD, List.getElem?_map, List.getElem?_range hc, map_some, getD_some]

variable {c : UInt8}

theorem tagLength_pos (h : c.toNat % 4 ≠ 0) : 0 < tagLength c := by
  have hc := c.toNat_lt
  rw [tagLength, entry, getD_charTable hc, tableEntry, if_neg h]
  split_ifs <;> omega

theorem extraBytes_le (c : UInt8) : extraBytes c ≤ 4 := by
  have hc := c.toNat_lt
  rw [extraBytes, entry, getD_charTable hc, tableEntry]
  split_ifs <;> omega

/-- `MAYBE_REFILL` when the function goes on. -/
def refilled (p : Bool × Decompressor × σ) : Option (Bool × Decompressor × σ) :=
  if p.1 = false then some p else p.2.1.maybeRefill.map fun q => (q.1, q.2, p.2.2)

/-- A round of `DecompressAllTags` with `MAYBE_REFILL`. -/
def round (W : Writer σ) (d : Decompressor) (w : σ) : Option (Bool × Decompressor × σ) :=
  (tag W d w).bind fun p => if p.2.1 = false then some (p.1, p.2.2) else refilled (p.1, p.2.2)

theorem bind_flag (x : Option (Bool × Decompressor × σ)) :
    ((x.map fun q => (q.1, true, q.2)).bind fun p => if p.2.1 = false then some (p.1, p.2.2) else refilled (p.1, p.2.2)) = x.bind refilled := by
  cases x with
  | none => rfl
  | some q => rfl

theorem bind_copied (x : Option (Bool × σ)) (d : Decompressor) :
    ((x.map fun q => (q.1, true, d, q.2)).bind fun p => if p.2.1 = false then some (p.1, p.2.2) else refilled (p.1, p.2.2)) =
      (x.map fun q => (q.1, d, q.2)).bind refilled := by
  cases x with
  | none => rfl
  | some q => rfl

variable {d : Decompressor} {w : σ} {p : Bool × Bool × Decompressor × σ}

theorem tag_flag (h : tag W d w = some p) : p.1 = true ∨ p.2.1 = true := by
  rw [tag] at h
  rcases hbuf : d.buf with _ | ⟨c, ip⟩
  · rw [hbuf] at h
    exact absurd h.symm (some_ne_none p)
  rw [hbuf] at h
  dsimp only at h
  by_cases hliteral : c.toNat % 4 = 0
  · rw [if_pos hliteral] at h
    obtain ⟨q, -, hq⟩ := bind_eq_some_iff.1 h
    by_cases hfast : q.1 = true
    · rw [if_pos hfast] at hq
      obtain rfl := Option.some.inj hq
      exact Or.inl rfl
    · rw [if_neg hfast] at hq
      obtain ⟨x, -, rfl⟩ := map_eq_some_iff.1 hq
      exact Or.inr rfl
  · rw [if_neg hliteral] at h
    obtain ⟨x, -, rfl⟩ := map_eq_some_iff.1 h
    exact Or.inr rfl

theorem tagLoop_succ (fuel : ℕ) (d : Decompressor) (w : σ) :
    tagLoop W (fuel + 1) d w = (round W d w).bind fun p => if p.1 = false then some p.2 else tagLoop W fuel p.2.1 p.2.2 := by
  rw [tagLoop, round]
  rcases htag : tag W d w with _ | ⟨go, refill, d', w'⟩
  · rfl
  have hflag := tag_flag htag
  rw [bind_some, bind_some]
  cases go with
  | false =>
    rw [if_pos rfl, if_neg (by rw [hflag.resolve_left Bool.false_ne_true]; exact Bool.noConfusion)]
    rfl
  | true =>
    cases refill with
    | false => rfl
    | true =>
      rw [if_neg (Bool.noConfusion : ¬ true = false), if_neg (Bool.noConfusion : ¬ true = false), refilled,
        if_neg (Bool.noConfusion : ¬ true = false)]
      rcases d'.maybeRefill with _ | ⟨b, d''⟩
      · rfl
      · rfl

theorem decompressAllTags_eq (fuel : ℕ) (d : Decompressor) (w : σ) :
    decompressAllTags W fuel d w = (refilled (true, d, w)).bind fun p => if p.1 = false then some p.2 else tagLoop W fuel p.2.1 p.2.2 := by
  rw [decompressAllTags, refilled, if_neg (Bool.noConfusion : ¬ true = false)]
  rcases d.maybeRefill with _ | ⟨b, d'⟩
  · rfl
  · rfl

variable {d' : Decompressor}

theorem refillAt_eof {b : Bool} (h : d.refillAt c = some (b, d')) : d'.eof = d.eof := by
  rw [Decompressor.refillAt] at h
  by_cases hneed : d.buf.length % 2 ^ 32 < extraBytes c + 1
  · rw [if_pos hneed] at h
    obtain ⟨p, -, hp⟩ := map_eq_some_iff.1 h
    rw [← (Prod.mk.inj hp).2]
  · rw [if_neg hneed] at h
    by_cases hshort : d.buf.length % 2 ^ 32 < kMaximumTagLength
    · rw [if_pos hshort] at h
      rw [← (Prod.mk.inj (Option.some.inj h)).2]
    · rw [if_neg hshort] at h
      rw [← (Prod.mk.inj (Option.some.inj h)).2]

theorem maybeRefill_eof (h : d.maybeRefill = some (true, d')) : d'.eof = d.eof := by
  rw [Decompressor.maybeRefill] at h
  by_cases hshort : d.buf.length < kMaximumTagLength
  · rw [if_pos hshort, Decompressor.refillTag] at h
    have hsame : (if d.buf = [] then d.fetch else d).eof = d.eof := by
      by_cases hempty : d.buf = []
      · rw [if_pos hempty]
        rfl
      · rw [if_neg hempty]
    generalize (if d.buf = [] then d.fetch else d) = e at h hsame
    rcases hbuf : e.buf with _ | ⟨c, ip⟩
    · rw [hbuf] at h
      exact absurd (Prod.mk.inj (Option.some.inj h)).1 Bool.false_ne_true
    · rw [hbuf] at h
      exact (refillAt_eof h).trans hsame
  · rw [if_neg hshort] at h
    rw [← (Prod.mk.inj (Option.some.inj h)).2]

section
variable {limit : ℕ} {R : Bytes → σ → Prop}

/-- Two results agree: the decoders are at the same place, and have written the same unless one of the writers has refused. -/
def Agrees (R : Bytes → σ → Prop) : Option (Bool × Decompressor × Bytes) → Option (Bool × Decompressor × σ) → Prop
  | none, none => True
  | some p, some q => p.1 = q.1 ∧ p.2.1 = q.2.1 ∧ (p.1 = true → p.2.1.eof = false) ∧ (p.1 = true ∨ p.2.1.eof = true → R p.2.2 q.2.2)
  | _, _ => False

variable {out : Bytes}

theorem Agrees.go (h : R out w) (heof : d.eof = false) : Agrees R (some (true, d, out)) (some (true, d, w)) :=
  ⟨rfl, rfl, fun _ => heof, fun _ => h⟩

theorem Agrees.refused (heof : d.eof = false) : Agrees R (some (false, d, out)) (some (false, d, w)) :=
  ⟨rfl, rfl, fun h => absurd h Bool.false_ne_true, fun h => h.elim (fun h => absurd h Bool.false_ne_true) fun h => absurd (heof.symm.trans h) Bool.false_ne_true⟩

variable {a : Option (Bool × Decompressor × Bytes)} {b : Option (Bool × Decompressor × σ)}

theorem Agrees.refilled (h : Agrees R a b) : Agrees R (a.bind refilled) (b.bind refilled) := by
  rcases a with _ | ⟨go, d, out⟩
  · rcases b with _ | q
    · exact trivial
    · exact h.elim
  rcases b with _ | ⟨go', d', w⟩
  · exact h.elim
  obtain ⟨hgo, hd, heof, hR⟩ := h
  subst hgo hd
  rw [bind_some, bind_some, Snappy.refilled, Snappy.refilled]
  cases go with
  | false => exact ⟨rfl, rfl, heof, hR⟩
  | true =>
    rcases hrefill : d.maybeRefill with _ | ⟨go', d'⟩
    · exact trivial
    · refine ⟨rfl, rfl, fun hgo => ?_, fun _ => hR (Or.inl rfl)⟩
      have hgo' : go' = true := hgo
      subst hgo'
      exact (maybeRefill_eof hrefill).trans (heof rfl)

theorem literalLoop_agrees (hW : Implements limit W R) : ∀ {fuel n : ℕ} {d : Decompressor} {out : Bytes} {w : σ}, R out w → d.eof = false →
    Agrees R (literalLoop (plainWriter (upTo limit)) fuel d n out) (literalLoop W fuel d n w) := by
  intro fuel
  induction fuel with
  | zero => exact fun _ _ => trivial
  | succ fuel ih =>
    intro n d out w hR heof
    rw [literalLoop, literalLoop]
    have hplain : ∀ ip, (plainWriter (upTo limit)).append ip out = some (upTo limit (out.length + ip.length), out ++ ip) := fun _ => rfl
    by_cases hmore : d.buf.length < n
    · rw [if_pos hmore, if_pos hmore]
      obtain ⟨w', happend, hR'⟩ := hW.append d.buf hR
      rw [hplain, happend, bind_some, bind_some]
      by_cases hfits : out.length + d.buf.length ≤ limit
      · rw [upTo, decide_eq_true hfits, if_neg (Bool.noConfusion : ¬ true = false), if_neg (Bool.noConfusion : ¬ true = false)]
        by_cases hend : d.fetch.buf = []
        · rw [if_pos hend, if_pos hend]
          exact Agrees.refused heof
        · rw [if_neg hend, if_neg hend]
          exact ih (hR' hfits) heof
      · rw [upTo, decide_eq_false hfits, if_pos rfl, if_pos rfl]
        exact Agrees.refused heof
    · rw [if_neg hmore, if_neg hmore]
      obtain ⟨w', happend, hR'⟩ := hW.append (d.buf.take n) hR
      rw [hplain, happend, map_some, map_some]
      by_cases hfits : out.length + (d.buf.take n).length ≤ limit
      · rw [upTo, decide_eq_true hfits]
        exact Agrees.go (hR' hfits) heof
      · rw [upTo, decide_eq_false hfits]
        exact Agrees.refused heof

theorem literal_agrees (hW : Implements limit W R) {n : ℕ} (hR : R out w) (heof : d.eof = false) :
    Agrees R (literal (plainWriter (upTo limit)) d n out) (literal W d n w) := by
  rw [literal, literal]
  by_cases hlong : 61 ≤ n
  · rw [if_pos hlong, if_pos hlong]
    exact literalLoop_agrees hW hR heof
  · rw [if_neg hlong, if_neg hlong]
    exact literalLoop_agrees hW hR heof

/-- **A round** with a writer and with the plain one. -/
theorem round_agrees (hW : Implements limit W R) (hR : R out w) (heof : d.eof = false) :
    Agrees R (round (plainWriter (upTo limit)) d out) (round W d w) := by
  rw [round, round, tag, tag]
  rcases hbuf : d.buf with _ | ⟨c, ip⟩
  · exact trivial
  dsimp only
  by_cases hliteral : c.toNat % 4 = 0
  · rw [if_pos hliteral, if_pos hliteral]
    have hplain : (plainWriter (upTo limit)).tryFastAppend ip (c.toNat / 4 + 1) out = some (false, out) := rfl
    obtain ⟨b, w', hfast, hno, hyes⟩ := hW.fast ip (c.toNat / 4 + 1) hR
    rw [hplain, hfast, bind_some, bind_some, if_neg Bool.false_ne_true]
    cases b with
    | false =>
      rw [if_neg Bool.false_ne_true, bind_flag, bind_flag]
      have heof' : ({ d with buf := ip } : Decompressor).eof = false := heof
      exact (literal_agrees hW (hno rfl) heof').refilled
    | true =>
      obtain ⟨hn, hip, hfits, hR'⟩ := hyes rfl
      have hlen : (ip.take (c.toNat / 4 + 1)).length = c.toNat / 4 + 1 := by
        rw [length_take, Nat.min_eq_left (by omega)]
      have hslow : literal (plainWriter (upTo limit)) { d with buf := ip } (c.toNat / 4 + 1) out =
          some (true, { d with buf := ip.drop (c.toNat / 4 + 1) }, out ++ ip.take (c.toNat / 4 + 1)) := by
        rw [literal, if_neg (by omega), literalLoop, if_neg (by dsimp only; omega)]
        show some (upTo limit (out.length + (ip.take (c.toNat / 4 + 1)).length), _) = _
        rw [hlen, upTo, decide_eq_true hfits]
      have hrefill : Decompressor.maybeRefill { d with buf := ip.drop (c.toNat / 4 + 1) } = some (true, { d with buf := ip.drop (c.toNat / 4 + 1) }) :=
        if_neg (by dsimp only; rw [length_drop]; omega)
      rw [if_pos rfl, bind_flag, hslow, bind_some, refilled, if_neg (Bool.noConfusion : ¬ true = false), hrefill]
      exact Agrees.go hR' heof
  · rw [if_neg hliteral, if_neg hliteral, bind_copied, bind_copied]
    have hoffset : (copyOffset c + ofLittleEndian (ip.take (extraBytes c))) % 2 ^ 32 < 2 ^ 32 := Nat.mod_lt _ (by decide)
    generalize (copyOffset c + ofLittleEndian (ip.take (extraBytes c))) % 2 ^ 32 = offset at hoffset
    obtain ⟨hbad, hgood⟩ := hW.self hR hoffset (tagLength_pos hliteral)
    have hcopy : Agrees R (((plainWriter (upTo limit)).appendFromSelf offset (tagLength c) out).map fun p =>
        (p.1, { d with buf := ip.drop (extraBytes c) }, p.2)) ((W.appendFromSelf offset (tagLength c) w).map fun p =>
        (p.1, { d with buf := ip.drop (extraBytes c) }, p.2)) := by
      show Agrees R (Option.map _ (if offset = 0 ∨ out.length < offset then some (false, out)
        else some (upTo limit (out.length + tagLength c), copyBack offset (tagLength c) out))) _
      by_cases hout : offset = 0 ∨ out.length < offset
      · obtain ⟨w', hself⟩ := hbad hout
        rw [if_pos hout, hself]
        exact Agrees.refused heof
      · obtain ⟨w', hself, hR'⟩ := hgood (by omega) (by omega)
        rw [if_neg hout, hself]
        by_cases hfits : out.length + tagLength c ≤ limit
        · rw [upTo, decide_eq_true hfits]
          exact Agrees.go (hR' hfits) heof
        · rw [upTo, decide_eq_false hfits]
          exact Agrees.refused heof
    exact hcopy.refilled

def Ends (R : Bytes → σ → Prop) : Option (Decompressor × Bytes) → Option (Decompressor × σ) → Prop
  | none, none => True
  | some p, some q => p.1 = q.1 ∧ (p.1.eof = true → R p.2 q.2)
  | _, _ => False

theorem Agrees.bind (h : Agrees R a b)
    {f : Decompressor → Bytes → Option (Decompressor × Bytes)} {g : Decompressor → σ → Option (Decompressor × σ)}
    (hfg : ∀ d out w, R out w → d.eof = false → Ends R (f d out) (g d w)) :
    Ends R (a.bind fun p => if p.1 = false then some p.2 else f p.2.1 p.2.2) (b.bind fun p => if p.1 = false then some p.2 else g p.2.1 p.2.2) := by
  rcases a with _ | ⟨go, d, out⟩
  · rcases b with _ | q
    · exact trivial
    · exact h.elim
  rcases b with _ | ⟨go', d', w⟩
  · exact h.elim
  obtain ⟨hgo, hd, heof, hR⟩ := h
  subst hgo hd
  rw [bind_some, bind_some]
  cases go with
  | false => exact ⟨rfl, fun he => hR (Or.inr he)⟩
  | true =>
    exact hfg d out w (hR (Or.inl rfl)) (heof rfl)

theorem tagLoop_agrees (hW : Implements limit W R) : ∀ {fuel : ℕ} {d : Decompressor} {out : Bytes} {w : σ}, R out w → d.eof = false →
    Ends R (tagLoop (plainWriter (upTo limit)) fuel d out) (tagLoop W fuel d w) := by
  intro fuel
  induction fuel with
  | zero => exact fun _ _ => trivial
  | succ fuel ih =>
    intro d out w hR heof
    rw [tagLoop_succ, tagLoop_succ]
    exact (round_agrees hW hR heof).bind fun d out w hR heof => ih hR heof

theorem decompressAllTags_agrees (hW : Implements limit W R) (fuel : ℕ) (hR : R out w) (heof : d.eof = false) :
    Ends R (decompressAllTags (plainWriter (upTo limit)) fuel d out) (decompressAllTags W fuel d w) := by
  rw [decompressAllTags_eq, decompressAllTags_eq]
  exact (Agrees.go hR heof).refilled.bind fun d out w hR heof => tagLoop_agrees hW hR heof

end

/-- What a writer is, whatever is written. -/
structure Keeps (W : Writer σ) (P : σ → Prop) : Prop where
  append : ∀ {w} (ip : Bytes) {p}, P w → W.append ip w = some p → P p.2
  fast : ∀ {w} (ip : Bytes) (n : ℕ) {p}, P w → W.tryFastAppend ip n w = some p → P p.2
  self : ∀ {w} (offset len : ℕ) {p}, P w → W.appendFromSelf offset len w = some p → P p.2

variable {P : σ → Prop}

theorem literalLoop_keeps (hW : Keeps W P) : ∀ {fuel n : ℕ} {d : Decompressor} {w : σ} {p : Bool × Decompressor × σ}, P w →
    literalLoop W fuel d n w = some p → P p.2.2 := by
  intro fuel
  induction fuel with
  | zero => exact fun _ h => absurd h.symm (some_ne_none _)
  | succ fuel ih =>
    intro n d w p hP h
    rw [literalLoop] at h
    by_cases hmore : d.buf.length < n
    · rw [if_pos hmore] at h
      obtain ⟨q, happend, hrest⟩ := bind_eq_some_iff.1 h
      have hP' := hW.append d.buf hP happend
      by_cases hrefused : q.1 = false
      · rw [if_pos hrefused] at hrest
        obtain rfl := Option.some.inj hrest
        exact hP'
      rw [if_neg hrefused] at hrest
      by_cases hend : d.fetch.buf = []
      · rw [if_pos hend] at hrest
        obtain rfl := Option.some.inj hrest
        exact hP'
      · rw [if_neg hend] at hrest
        exact ih hP' hrest
    · rw [if_neg hmore] at h
      obtain ⟨q, happend, rfl⟩ := map_eq_some_iff.1 h
      exact hW.append (d.buf.take n) hP happend

theorem literal_keeps (hW : Keeps W P) {n : ℕ} {p : Bool × Decompressor × σ} (hP : P w) (h : literal W d n w = some p) : P p.2.2 := by
  rw [literal] at h
  by_cases hlong : 61 ≤ n
  · rw [if_pos hlong] at h
    exact literalLoop_keeps hW hP h
  · rw [if_neg hlong] at h
    exact literalLoop_keeps hW hP h

theorem tag_keeps (hW : Keeps W P) (hP : P w) (h : tag W d w = some p) : P p.2.2.2 := by
  rw [tag] at h
  rcases hbuf : d.buf with _ | ⟨c, ip⟩
  · rw [hbuf] at h
    exact absurd h.symm (some_ne_none p)
  rw [hbuf] at h
  dsimp only at h
  by_cases hliteral : c.toNat % 4 = 0
  · rw [if_pos hliteral] at h
    obtain ⟨q, hfast, hq⟩ := bind_eq_some_iff.1 h
    have hP' := hW.fast ip (c.toNat / 4 + 1) hP hfast
    by_cases hdone : q.1 = true
    · rw [if_pos hdone] at hq
      obtain rfl := Option.some.inj hq
      exact hP'
    · rw [if_neg hdone] at hq
      obtain ⟨x, hx, rfl⟩ := map_eq_some_iff.1 hq
      have hkept : P x.2.2 := literal_keeps hW hP' hx
      exact hkept
  · rw [if_neg hliteral] at h
    obtain ⟨x, hx, rfl⟩ := map_eq_some_iff.1 h
    exact hW.self _ (tagLength c) hP hx

theorem refilled_keeps {p q : Bool × Decompressor × σ} (hP : P p.2.2) (h : refilled p = some q) : P q.2.2 := by
  rw [refilled] at h
  by_cases hgo : p.1 = false
  · rw [if_pos hgo] at h
    obtain rfl := Option.some.inj h
    exact hP
  · rw [if_neg hgo] at h
    obtain ⟨x, -, rfl⟩ := map_eq_some_iff.1 h
    exact hP

theorem round_keeps (hW : Keeps W P) {p : Bool × Decompressor × σ} (hP : P w) (h : round W d w = some p) : P p.2.2 := by
  obtain ⟨q, htag, hq⟩ := bind_eq_some_iff.1 h
  have hP' := tag_keeps hW hP htag
  by_cases hskip : q.2.1 = false
  · rw [if_pos hskip] at hq
    obtain rfl := Option.some.inj hq
    exact hP'
  · rw [if_neg hskip] at hq
    have hkept : P (q.1, q.2.2).2.2 := hP'
    exact refilled_keeps hkept hq

theorem tagLoop_keeps (hW : Keeps W P) : ∀ {fuel : ℕ} {d : Decompressor} {w : σ} {p : Decompressor × σ}, P w → tagLoop W fuel d w = some p → P p.2 := by
  intro fuel
  induction fuel with
  | zero => exact fun _ h => absurd h.symm (some_ne_none _)
  | succ fuel ih =>
    intro d w p hP h
    rw [tagLoop_succ] at h
    obtain ⟨q, hround, hq⟩ := bind_eq_some_iff.1 h
    have hP' := round_keeps hW hP hround
    by_cases hgo : q.1 = false
    · rw [if_pos hgo] at hq
      obtain rfl := Option.some.inj hq
      exact hP'
    · rw [if_neg hgo] at hq
      exact ih hP' hq

theorem decompressAllTags_keeps (hW : Keeps W P) {fuel : ℕ} {p : Decompressor × σ} (hP : P w)
    (h : decompressAllTags W fuel d w = some p) : P p.2 := by
  rw [decompressAllTags_eq] at h
  obtain ⟨q, hrefill, hq⟩ := bind_eq_some_iff.1 h
  have hP' : P q.2.2 := refilled_keeps hP hrefill
  by_cases hgo : q.1 = false
  · rw [if_pos hgo] at hq
    obtain rfl := Option.some.inj hq
    exact hP'
  · rw [if_neg hgo] at hq
    exact tagLoop_keeps hW hP' hq

def anything (_ : ℕ) : Bool := true

theorem plainWriter_keeps (fits : ℕ → Bool) (n : ℕ) : Keeps (plainWriter fits) fun out : Bytes => n < out.length where
  append := by
    intro out ip p hn h
    obtain rfl := Option.some.inj h
    rw [length_append]
    omega
  fast := by
    intro out ip k p hn h
    obtain rfl := Option.some.inj h
    exact hn
  self := by
    intro out offset len p hn h
    have hunfold : (plainWriter fits).appendFromSelf offset len out =
        if offset = 0 ∨ out.length < offset then some (false, out) else some (fits (out.length + len), copyBack offset len out) := rfl
    rw [hunfold] at h
    by_cases hbad : offset = 0 ∨ out.length < offset
    · rw [if_pos hbad] at h
      obtain rfl := Option.some.inj h
      exact hn
    · rw [if_neg hbad] at h
      obtain rfl := Option.some.inj h
      rw [CopyBack.length_copyBack (by omega) (by omega)]
      omega

/-- With an array the result is the same, or the string has become too long for it. -/
def Cut (limit : ℕ) (a b : Option (Bool × Decompressor × Bytes)) : Prop :=
  (a = b ∧ ∀ p, a = some p → p.1 = true → p.2.1.eof = false) ∨
    (∀ p, a = some p → p.1 = false ∧ p.2.1.eof = false) ∧ ∀ p, b = some p → limit < p.2.2.length

variable {limit : ℕ}

theorem Cut.none : Cut limit none none := Or.inl ⟨rfl, fun p h => absurd h.symm (some_ne_none p)⟩

variable {out : Bytes}

theorem Cut.same {go : Bool} (heof : d.eof = false) : Cut limit (some (go, d, out)) (some (go, d, out)) := by
  refine Or.inl ⟨rfl, fun p h _ => ?_⟩
  obtain rfl := Option.some.inj h
  exact heof

variable {b : Option (Bool × Decompressor × Bytes)}

theorem Cut.refused (heof : d.eof = false) (hb : ∀ p, b = some p → limit < p.2.2.length) : Cut limit (some (false, d, out)) b := by
  refine Or.inr ⟨fun p h => ?_, hb⟩
  obtain rfl := Option.some.inj h
  exact ⟨rfl, heof⟩

variable {a : Option (Bool × Decompressor × Bytes)}

theorem Cut.refilled (h : Cut limit a b) : Cut limit (a.bind refilled) (b.bind refilled) := by
  rcases h with ⟨rfl, heof⟩ | ⟨ha, hb⟩
  · refine Or.inl ⟨rfl, fun p hp hgo => ?_⟩
    obtain ⟨q, hq, hrefill⟩ := bind_eq_some_iff.1 hp
    rw [Snappy.refilled] at hrefill
    by_cases hstop : q.1 = false
    · rw [if_pos hstop] at hrefill
      obtain rfl := Option.some.inj hrefill
      exact absurd (hstop.symm.trans hgo) Bool.false_ne_true
    · rw [if_neg hstop] at hrefill
      obtain ⟨⟨b, d'⟩, hd, rfl⟩ := map_eq_some_iff.1 hrefill
      have hb : b = true := hgo
      subst hb
      exact (maybeRefill_eof hd).trans (heof q hq (Bool.not_eq_false _ ▸ hstop))
  refine Or.inr ⟨fun p hp => ?_, fun p hp => ?_⟩
  · obtain ⟨q, hq, hrefill⟩ := bind_eq_some_iff.1 hp
    obtain ⟨hgo, heof⟩ := ha q hq
    rw [Snappy.refilled, if_pos hgo] at hrefill
    obtain rfl := Option.some.inj hrefill
    exact ⟨hgo, heof⟩
  · obtain ⟨q, hq, hrefill⟩ := bind_eq_some_iff.1 hp
    have hlong : limit < q.2.2.length := hb q hq
    exact refilled_keeps (P := fun out : Bytes => limit < out.length) hlong hrefill

theorem literalLoop_cut : ∀ {fuel n : ℕ} {d : Decompressor} {out : Bytes}, d.eof = false →
    Cut limit (literalLoop (plainWriter (upTo limit)) fuel d n out) (literalLoop (plainWriter anything) fuel d n out) := by
  intro fuel
  induction fuel with
  | zero => exact fun _ => Cut.none
  | succ fuel ih =>
    intro n d out heof
    have hplain : ∀ fits ip, (plainWriter fits).append ip out = some (fits (out.length + ip.length), out ++ ip) := fun _ _ => rfl
    rw [literalLoop, literalLoop]
    by_cases hmore : d.buf.length < n
    · rw [if_pos hmore, if_pos hmore, hplain, hplain, bind_some, bind_some, anything, if_neg (Bool.noConfusion : ¬ true = false)]
      by_cases hfits : out.length + d.buf.length ≤ limit
      · rw [upTo, decide_eq_true hfits, if_neg (Bool.noConfusion : ¬ true = false)]
        by_cases hend : d.fetch.buf = []
        · rw [if_pos hend, if_pos hend]
          exact Cut.same heof
        · rw [if_neg hend, if_neg hend]
          exact ih heof
      · rw [upTo, decide_eq_false hfits, if_pos rfl]
        have hlong : limit < (out ++ d.buf).length := by
          rw [length_append]
          omega
        refine Cut.refused heof fun p hp => ?_
        by_cases hend : d.fetch.buf = []
        · rw [if_pos hend] at hp
          obtain rfl := Option.some.inj hp
          exact hlong
        · rw [if_neg hend] at hp
          exact literalLoop_keeps (plainWriter_keeps anything limit) hlong hp
    · rw [if_neg hmore, if_neg hmore, hplain, hplain, map_some, map_some, anything]
      by_cases hfits : out.length + (d.buf.take n).length ≤ limit
      · rw [upTo, decide_eq_true hfits]
        exact Cut.same heof
      · rw [upTo, decide_eq_false hfits]
        refine Cut.refused heof fun p hp => ?_
        obtain rfl := Option.some.inj hp
        rw [length_append]
        omega

theorem literal_cut {n : ℕ} (heof : d.eof = false) :
    Cut limit (literal (plainWriter (upTo limit)) d n out) (literal (plainWriter anything) d n out) := by
  rw [literal, literal]
  by_cases hlong : 61 ≤ n
  · rw [if_pos hlong, if_pos hlong]
    exact literalLoop_cut heof
  · rw [if_neg hlong, if_neg hlong]
    exact literalLoop_cut heof

theorem round_cut (heof : d.eof = false) : Cut limit (round (plainWriter (upTo limit)) d out) (round (plainWriter anything) d out) := by
  have hfast : ∀ fits ip n, (plainWriter fits).tryFastAppend ip n out = some (false, out) := fun _ _ _ => rfl
  have hself : ∀ fits offset len, (plainWriter fits).appendFromSelf offset len out =
      if offset = 0 ∨ out.length < offset then some (false, out) else some (fits (out.length + len), copyBack offset len out) := fun _ _ _ => rfl
  rw [round, round, tag, tag]
  rcases hbuf : d.buf with _ | ⟨c, ip⟩
  · exact Cut.none
  dsimp only
  by_cases hliteral : c.toNat % 4 = 0
  · rw [if_pos hliteral, if_pos hliteral, hfast, hfast, bind_some, bind_some, if_neg Bool.false_ne_true, if_neg Bool.false_ne_true,
      bind_flag, bind_flag]
    have heof' : ({ d with buf := ip } : Decompressor).eof = false := heof
    exact (literal_cut heof').refilled
  · rw [if_neg hliteral, if_neg hliteral, bind_copied, bind_copied, hself, hself]
    refine Cut.refilled ?_
    generalize (copyOffset c + ofLittleEndian (ip.take (extraBytes c))) % 2 ^ 32 = offset
    have heof' : ({ d with buf := ip.drop (extraBytes c) } : Decompressor).eof = false := heof
    by_cases hbad : offset = 0 ∨ out.length < offset
    · rw [if_pos hbad, if_pos hbad]
      exact Cut.same heof'
    rw [if_neg hbad, if_neg hbad, map_some, map_some, anything]
    by_cases hfits : out.length + tagLength c ≤ limit
    · rw [upTo, decide_eq_true hfits]
      exact Cut.same heof'
    · rw [upTo, decide_eq_false hfits]
      refine Cut.refused heof' fun p hp => ?_
      obtain rfl := Option.some.inj hp
      rw [CopyBack.length_copyBack (by omega) (by omega)]
      omega

def CutEnd (limit : ℕ) (a b : Option (Decompressor × Bytes)) : Prop :=
  a = b ∨ (∀ p, a = some p → p.1.eof = false) ∧ ∀ p, b = some p → limit < p.2.length

theorem Cut.bind (h : Cut limit a b) {f g : Decompressor → Bytes → Option (Decompressor × Bytes)}
    (hfg : ∀ d out, d.eof = false → CutEnd limit (f d out) (g d out))
    (hg : ∀ d out p, limit < out.length → g d out = some p → limit < p.2.length) :
    CutEnd limit (a.bind fun p => if p.1 = false then some p.2 else f p.2.1 p.2.2) (b.bind fun p => if p.1 = false then some p.2 else g p.2.1 p.2.2) := by
  rcases h with ⟨rfl, heof⟩ | ⟨ha, hb⟩
  · rcases a with _ | q
    · exact Or.inl rfl
    rw [bind_some, bind_some]
    by_cases hgo : q.1 = false
    · rw [if_pos hgo, if_pos hgo]
      exact Or.inl rfl
    · rw [if_neg hgo, if_neg hgo]
      exact hfg _ _ (heof q rfl (Bool.not_eq_false _ ▸ hgo))
  refine Or.inr ⟨fun p hp => ?_, fun p hp => ?_⟩
  · obtain ⟨q, hq, hrest⟩ := bind_eq_some_iff.1 hp
    obtain ⟨hgo, heof⟩ := ha q hq
    rw [if_pos hgo] at hrest
    obtain rfl := Option.some.inj hrest
    exact heof
  · obtain ⟨q, hq, hrest⟩ := bind_eq_some_iff.1 hp
    have hlong := hb q hq
    by_cases hgo : q.1 = false
    · rw [if_pos hgo] at hrest
      obtain rfl := Option.some.inj hrest
      exact hlong
    · rw [if_neg hgo] at hrest
      exact hg _ _ p hlong hrest

theorem tagLoop_cut : ∀ {fuel : ℕ} {d : Decompressor} {out : Bytes}, d.eof = false →
    CutEnd limit (tagLoop (plainWriter (upTo limit)) fuel d out) (tagLoop (plainWriter anything) fuel d out) := by
  intro fuel
  induction fuel with
  | zero => exact fun _ => Or.inl rfl
  | succ fuel ih =>
    intro d out heof
    rw [tagLoop_succ, tagLoop_succ]
    exact (round_cut heof).bind (fun d out heof => ih heof) fun d out p hlong hp => tagLoop_keeps (plainWriter_keeps anything limit) hlong hp

theorem decompressAllTags_cut (limit fuel : ℕ) (out : Bytes) (heof : d.eof = false) :
    CutEnd limit (decompressAllTags (plainWriter (upTo limit)) fuel d out) (decompressAllTags (plainWriter anything) fuel d out) := by
  rw [decompressAllTags_eq, decompressAllTags_eq]
  exact (Cut.same heof).refilled.bind (fun d out heof => tagLoop_cut heof) fun d out p hlong hp =>
    tagLoop_keeps (plainWriter_keeps anything limit) hlong hp

end KVStores.Snappy
