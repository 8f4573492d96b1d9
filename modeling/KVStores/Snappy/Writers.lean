import KVStores.Lib.CopyBack
import KVStores.Snappy.Decompress

/-!
# The writers of Snappy

The plain writer keeps what is written as a list, and the three of the library do what it does: `Implements` says this of one
call after the other, and that no call reaches outside its array.
-/

namespace KVStores.Snappy

open List Option

open CopyBack

def plainWriter (fits : ℕ → Bool) : Writer Bytes where
  setExpectedLength _ out := out
  checkLength _ := true
  append ip out := some (fits (out.length + ip.length), out ++ ip)
  tryFastAppend _ _ out := some (false, out)
  appendFromSelf offset len out :=
    if offset = 0 ∨ out.length < offset then some (false, out) else some (fits (out.length + len), copyBack offset len out)

def upTo (limit n : ℕ) : Bool := decide (n ≤ limit)

/-- **A writer does what the plain one does**, and `R` says that both have written the same. -/
structure Implements {σ : Type} (limit : ℕ) (W : Writer σ) (R : Bytes → σ → Prop) : Prop where
  check : ∀ {out w}, R out w → W.checkLength w = decide (out.length = limit)
  length_le : ∀ {out w}, R out w → out.length ≤ limit
  append : ∀ {out w} (ip : Bytes), R out w → ∃ w', W.append ip w = some (upTo limit (out.length + ip.length), w') ∧
    (out.length + ip.length ≤ limit → R (out ++ ip) w')
  fast : ∀ {out w} (ip : Bytes) (n : ℕ), R out w → ∃ b w', W.tryFastAppend ip n w = some (b, w') ∧ (b = false → R out w') ∧
    (b = true → n ≤ 16 ∧ n + kMaximumTagLength ≤ ip.length ∧ out.length + n ≤ limit ∧ R (out ++ ip.take n) w')
  self : ∀ {out w} {offset len : ℕ}, R out w → offset < 2 ^ 32 → 0 < len →
    ((offset = 0 ∨ out.length < offset) → ∃ w', W.appendFromSelf offset len w = some (false, w')) ∧
    (0 < offset → offset ≤ out.length → ∃ w', W.appendFromSelf offset len w = some (upTo limit (out.length + len), w') ∧
      (out.length + len ≤ limit → R (copyBack offset len out) w'))

theorem le_offsetMinusOne {produced offset : ℕ} (hp : produced < 2 ^ 32) (ho : offset < 2 ^ 32) :
    produced ≤ offsetMinusOne offset ↔ offset = 0 ∨ produced < offset := by
  rw [offsetMinusOne]
  rcases Nat.eq_zero_or_pos offset with rfl | hpos
  · exact iff_of_true (by omega) (Or.inl rfl)
  · omega

def Validator.Counts (limit : ℕ) (out : Bytes) (w : Validator) : Prop := w.expected = limit ∧ w.produced = out.length ∧ out.length ≤ limit

theorem validator_implements {limit : ℕ} (hlimit : limit < 2 ^ 32) : Implements limit validator (Validator.Counts limit) where
  check := by
    rintro out w ⟨hexpected, hproduced, -⟩
    show decide (w.expected = w.produced) = _
    rw [hexpected, hproduced]
    exact decide_eq_decide.2 eq_comm
  length_le h := h.2.2
  append := by
    rintro out w ip ⟨hexpected, hproduced, -⟩
    refine ⟨⟨w.expected, w.produced + ip.length⟩, ?_, fun hfits => ⟨hexpected, ?_, ?_⟩⟩
    · show some (decide (w.produced + ip.length ≤ w.expected), _) = _
      rw [hexpected, hproduced]
      rfl
    · rw [length_append, ← hproduced]
    · rwa [length_append]
  fast _ _ h := ⟨false, _, rfl, fun _ => h, fun h => absurd h Bool.false_ne_true⟩
  self := by
    rintro out w offset len ⟨hexpected, hproduced, hle⟩ hoffset -
    have hiff := @le_offsetMinusOne w.produced offset (by omega) hoffset
    refine ⟨fun hbad => ⟨w, if_pos (hiff.2 (by omega))⟩, fun hpos hin => ?_⟩
    refine ⟨⟨w.expected, w.produced + len⟩, ?_, fun hfits => ⟨hexpected, ?_, ?_⟩⟩
    · show (if w.produced ≤ offsetMinusOne offset then _ else some (decide (w.produced + len ≤ w.expected), _)) = _
      rw [if_neg (by omega), hexpected, hproduced]
      rfl
    · rw [length_copyBack hpos hin, ← hproduced]
    · rwa [length_copyBack hpos hin]

theorem take_write {m l : Bytes} {p : ℕ} (h : p + l.length ≤ m.length) :
    ∃ m', Memory.write m p l = some m' ∧ m'.length = m.length ∧ m'.take (p + l.length) = m.take p ++ l := by
  have hfront : (m.take p).length = p := by
    rw [length_take]
    omega
  refine ⟨m.take p ++ l ++ m.drop (p + l.length), if_pos h, ?_, ?_⟩
  · rw [length_append, length_append, hfront, length_drop]
    omega
  · exact take_left' (by rw [length_append, hfront])

variable {out : Bytes} {d : ℕ}

/-- **`IncrementalCopy`.** -/
theorem copyBytes_copied (hd : 0 < d) (h : d ≤ out.length) : ∀ {len k : ℕ} {m : Bytes}, Copied d out k m → out.length + k + len ≤ m.length →
    ∃ m', copyBytes len (out.length + k - d) (out.length + k) m = some m' ∧ m'.length = m.length ∧ Copied d out (k + len) m' := by
  intro len
  induction len with
  | zero => exact fun hm _ => ⟨_, rfl, rfl, hm⟩
  | succ len ih =>
    intro k m hm hroom
    obtain ⟨m₁, hmove, hlen₁, hm₁⟩ := @Copied.move _ _ _ hd h k 1 d m hm (by omega) (dvd_refl d) hd (by omega)
    rw [Nat.min_eq_right hd] at hm₁
    obtain ⟨m₂, hcopy, hlen₂, hm₂⟩ := ih hm₁ (by omega)
    refine ⟨m₂, ?_, by omega, ?_⟩
    · rw [copyBytes, hmove, bind_some, show out.length + k - d + 1 = out.length + (k + 1) - d by omega]
      exact hcopy
    · rwa [show k + (len + 1) = k + 1 + len by omega]

theorem expandPattern_copied (hd : 0 < d) (h : d ≤ out.length) {len : ℕ} (hlen : 0 < len) : ∀ {fuel k : ℕ} {m : Bytes}, Copied d out k m → d ∣ k →
    out.length + len + kMaxIncrementCopyOverflow ≤ m.length → 8 ≤ d + k + fuel → (k = 0 ∨ k = d ∨ k = 3 * d ∨ 8 ≤ d + k) → k ≤ 10 →
    ∃ k' m', expandPattern (fuel + 1) (out.length - d) (out.length + k) ((len : ℤ) - k) m = some (out.length + k', (len : ℤ) - k', m') ∧
      m'.length = m.length ∧ Copied d out k' m' ∧ d ∣ k' ∧ 8 ≤ d + k' := by
  intro fuel
  induction fuel with
  | zero =>
    intro k m hm hk _ hfuel _ _
    rw [expandPattern, if_neg (by omega)]
    exact ⟨k, m, rfl, rfl, hm, hk, by omega⟩
  | succ fuel ih =>
    intro k m hm hk hroom hfuel hcases hsmall
    rw [kMaxIncrementCopyOverflow] at hroom
    by_cases hlt : d + k < 8
    · have hmoved : out.length + k + 8 ≤ m.length := by omega
      obtain ⟨m₁, hmove, hlen₁, hm₁⟩ := @Copied.move _ _ _ hd h k 8 (d + k) m hm hmoved (Nat.dvd_add (dvd_refl d) hk) (by omega) (Nat.le_refl _)
      rw [Nat.min_eq_left (by omega)] at hm₁
      have hdvd : d ∣ k + (d + k) := Nat.dvd_add hk (Nat.dvd_add (dvd_refl d) hk)
      obtain ⟨k', m', hexpand, hlen', hm', hk', hfar⟩ := @ih (k + (d + k)) m₁ hm₁ hdvd (by rw [kMaxIncrementCopyOverflow]; omega) (by omega) (by omega) (by omega)
      refine ⟨k', m', ?_, by omega, hm', hk', hfar⟩
      rw [expandPattern, if_pos (by omega), show out.length + k - (out.length - d) = d + k by omega, unalignedCopy64,
        show out.length - d = out.length + k - (d + k) by omega, hmove, bind_some, show out.length + k - (d + k) = out.length - d by omega,
        show out.length + k + (d + k) = out.length + (k + (d + k)) by omega,
        show (len : ℤ) - k - ((d + k : ℕ) : ℤ) = len - ((k + (d + k) : ℕ) : ℤ) by push_cast; omega]
      exact hexpand
    · rw [expandPattern, if_neg (by omega)]
      exact ⟨k, m, rfl, rfl, hm, hk, by omega⟩

theorem copyWords_copied (hd : 0 < d) (h : d ≤ out.length) {e : ℕ} (he : d ∣ e) (hfar : 8 ≤ e) {len : ℕ} : ∀ {fuel k : ℕ} {m : Bytes}, Copied d out k m →
    e ≤ d + k → out.length + len + 7 ≤ m.length → len ≤ k + fuel →
    ∃ k' m', copyWords (fuel + 1) (out.length + k - e) (out.length + k) ((len : ℤ) - k) m = some m' ∧ m'.length = m.length ∧ Copied d out k' m' ∧ len ≤ k' := by
  intro fuel
  induction fuel with
  | zero =>
    intro k m hm _ _ hfuel
    rw [copyWords, if_neg (by omega)]
    exact ⟨k, m, rfl, rfl, hm, hfuel⟩
  | succ fuel ih =>
    intro k m hm hback hroom hfuel
    by_cases hlt : k < len
    · obtain ⟨m₁, hmove, hlen₁, hm₁⟩ := @Copied.move _ _ _ hd h k 8 e m hm (by omega) he (by omega) hback
      rw [Nat.min_eq_right hfar] at hm₁
      obtain ⟨k', m', hwords, hlen', hm', hk'⟩ := ih hm₁ (by omega) (by omega) (by omega)
      refine ⟨k', m', ?_, by omega, hm', hk'⟩
      rw [copyWords, if_pos (by omega), unalignedCopy64, hmove, bind_some, show out.length + k - e + 8 = out.length + (k + 8) - e by omega,
        show (len : ℤ) - k - 8 = len - ((k + 8 : ℕ) : ℤ) by push_cast; omega]
      exact hwords
    · rw [copyWords, if_neg (by omega)]
      exact ⟨k, m, rfl, rfl, hm, by omega⟩

/-- **`IncrementalCopyFastPath`** copies, and spoils ten more bytes at most. -/
theorem incrementalCopyFastPath_copied (hd : 0 < d) (h : d ≤ out.length) {len : ℕ} {m : Bytes} (hlen : 0 < len) (hm : Copied d out 0 m)
    (hroom : out.length + len + kMaxIncrementCopyOverflow ≤ m.length) :
    ∃ m', incrementalCopyFastPath (out.length - d) out.length len m = some m' ∧ m'.length = m.length ∧ Copied d out len m' := by
  obtain ⟨k, m₁, hexpand, hlen₁, hm₁, hk, hfar⟩ := @expandPattern_copied _ _ hd h len hlen 8 0 m hm (Nat.dvd_zero d) hroom (by omega) (Or.inl rfl) (Nat.zero_le _)
  rw [kMaxIncrementCopyOverflow] at hroom
  have he : d ∣ d + k := Nat.dvd_add (dvd_refl d) hk
  obtain ⟨k', m', hwords, hlen', hm', hk'⟩ := @copyWords_copied _ _ hd h (d + k) he hfar len len k m₁ hm₁ (Nat.le_refl _) (by omega) (by omega)
  refine ⟨m', ?_, by omega, hm'.mono hd h hk'⟩
  have hfirst : expandPattern 9 (out.length - d) out.length len m = some (out.length + k, (len : ℤ) - k, m₁) := by
    rwa [Nat.cast_zero, sub_zero] at hexpand
  rw [incrementalCopyFastPath, hfirst, bind_some, show out.length - d = out.length + k - (d + k) by omega]
  exact hwords

def ArrayWriter.Has (limit : ℕ) (out : Bytes) (w : ArrayWriter) : Prop :=
  w.mem.length = limit ∧ w.opLimit = limit ∧ w.op = out.length ∧ out.length ≤ limit ∧ w.mem.take out.length = out

theorem ArrayWriter.Has.copy {limit : ℕ} {w : ArrayWriter} (hw : w.Has limit out) {offset len : ℕ} (hpos : 0 < offset) (hin : offset ≤ out.length)
    (hlen : 0 < len) : (out.length + len ≤ limit → ∃ m', w.copy offset len = some (true, m') ∧ m'.length = limit ∧ Copied offset out len m') ∧
      (limit < out.length + len → w.copy offset len = some (false, w.mem)) := by
  obtain ⟨hmem, hlimit, hop, hle, htake⟩ := hw
  have hm : Copied offset out 0 w.mem := htake
  rw [ArrayWriter.copy, hop, hlimit]
  by_cases hfast : len ≤ 16 ∧ 8 ≤ offset ∧ 16 ≤ limit - out.length
  · rw [if_pos hfast]
    refine ⟨fun _ => ?_, fun hbad => absurd hbad (by omega)⟩
    obtain ⟨m₁, hmove₁, hlen₁, hm₁⟩ := @Copied.move _ _ _ hpos hin 0 8 offset w.mem hm (by omega) (dvd_refl _) hpos (by omega)
    rw [Nat.min_eq_right hfast.2.1] at hm₁
    obtain ⟨m₂, hmove₂, hlen₂, hm₂⟩ := @Copied.move _ _ _ hpos hin (0 + 8) 8 offset m₁ hm₁ (by omega) (dvd_refl _) hpos (by omega)
    rw [Nat.min_eq_right hfast.2.1] at hm₂
    refine ⟨m₂, ?_, by omega, hm₂.mono hpos hin hfast.1⟩
    rw [unalignedCopy64]
    rw [Nat.add_zero] at hmove₁
    rw [hmove₁, bind_some, unalignedCopy64, show out.length - offset + 8 = out.length + (0 + 8) - offset by omega]
    rw [hmove₂]
    rfl
  rw [if_neg hfast]
  by_cases hroom : len + kMaxIncrementCopyOverflow ≤ limit - out.length
  · rw [if_pos hroom]
    rw [kMaxIncrementCopyOverflow] at hroom
    refine ⟨fun _ => ?_, fun hbad => absurd hbad (by omega)⟩
    obtain ⟨m', hcopy, hlen', hm'⟩ := incrementalCopyFastPath_copied hpos hin hlen hm (by rw [kMaxIncrementCopyOverflow]; omega)
    refine ⟨m', ?_, by omega, hm'⟩
    rw [hcopy]
    rfl
  rw [if_neg hroom]
  by_cases hno : limit - out.length < len
  · rw [if_pos hno]
    exact ⟨fun hfits => absurd hfits (by omega), fun _ => rfl⟩
  · rw [if_neg hno]
    refine ⟨fun _ => ?_, fun hbad => absurd hbad (by omega)⟩
    obtain ⟨m', hcopy, hlen', hm'⟩ := @copyBytes_copied _ _ hpos hin len 0 w.mem hm (by omega)
    rw [Nat.add_zero] at hcopy
    rw [Nat.zero_add] at hm'
    refine ⟨m', ?_, by omega, hm'⟩
    rw [incrementalCopy, Nat.max_eq_right hlen, hcopy]
    rfl

theorem arrayWriter_implements {limit : ℕ} (hlimit : limit < 2 ^ 32) : Implements limit arrayWriter (ArrayWriter.Has limit) where
  check := by
    rintro out w ⟨-, hopLimit, hop, -⟩
    show decide (w.op = w.opLimit) = _
    rw [hop, hopLimit]
  length_le h := h.2.2.2.1
  append := by
    rintro out w ip ⟨hmem, hopLimit, hop, hle, htake⟩
    show ∃ w', (if w.opLimit - w.op < ip.length then some (false, w)
      else (Memory.write w.mem w.op ip).map fun m => (true, { w with mem := m, op := w.op + ip.length })) = _ ∧ _
    rw [hopLimit, hop]
    by_cases hfits : out.length + ip.length ≤ limit
    · obtain ⟨m', hwrite, hlen, hm'⟩ := @take_write w.mem ip out.length (by omega)
      rw [if_neg (by omega), hwrite]
      refine ⟨⟨m', out.length + ip.length, limit⟩, ?_, fun _ => ⟨hlen.trans hmem, rfl, (length_append).symm, ?_, ?_⟩⟩
      · rw [upTo, decide_eq_true hfits, ← hopLimit]
        rfl
      · rwa [length_append]
      · rw [length_append, hm', htake]
    · rw [if_pos (by omega), upTo, decide_eq_false hfits]
      exact ⟨w, rfl, fun h => absurd h hfits⟩
  fast := by
    rintro out w ip n ⟨hmem, hopLimit, hop, hle, htake⟩
    show ∃ b w', (if n ≤ 16 ∧ 16 + kMaximumTagLength ≤ ip.length ∧ 16 ≤ w.opLimit - w.op then
        ((Memory.write w.mem w.op (ip.take 8)).bind fun m => Memory.write m (w.op + 8) ((ip.drop 8).take 8)).map fun m =>
          (true, { w with mem := m, op := w.op + n })
      else some (false, w)) = _ ∧ _
    rw [hopLimit, hop]
    by_cases hfast : n ≤ 16 ∧ 16 + kMaximumTagLength ≤ ip.length ∧ 16 ≤ limit - out.length
    · rw [if_pos hfast]
      obtain ⟨hn, hip, hroom⟩ := hfast
      have h₁ : (ip.take 8).length = 8 := by
        rw [length_take]
        omega
      have h₂ : ((ip.drop 8).take 8).length = 8 := by
        rw [length_take, length_drop]
        omega
      obtain ⟨m₁, hwrite₁, hlen₁, hm₁⟩ := @take_write w.mem (ip.take 8) out.length (by omega)
      obtain ⟨m₂, hwrite₂, hlen₂, hm₂⟩ := @take_write m₁ ((ip.drop 8).take 8) (out.length + 8) (by omega)
      rw [hwrite₁, bind_some, hwrite₂]
      refine ⟨true, ⟨m₂, out.length + n, limit⟩, by rw [← hopLimit]; rfl, fun h => absurd h.symm Bool.false_ne_true, fun _ =>
        ⟨hn, by rw [kMaximumTagLength] at hip ⊢; omega, by omega, hlen₂.trans (hlen₁.trans hmem), rfl, ?_, ?_, ?_⟩⟩
      · rw [length_append, length_take, Nat.min_eq_left (by omega)]
      · rw [length_append, length_take]
        omega
      · have hall : m₂.take (out.length + 16) = out ++ ip.take 16 := by
          rw [h₁] at hm₁
          rw [h₂, hm₁, htake, append_assoc, ← take_add] at hm₂
          exact hm₂
        have hcut := congrArg (List.take (out.length + n)) hall
        rw [take_take, Nat.min_eq_left (by omega), take_length_add_append, take_take, Nat.min_eq_left hn] at hcut
        rw [length_append, length_take, Nat.min_eq_left (by omega)]
        exact hcut
    · rw [if_neg hfast]
      exact ⟨false, w, rfl, fun _ => ⟨hmem, hopLimit, hop, hle, htake⟩, fun h => absurd h Bool.false_ne_true⟩
  self := by
    rintro out w offset len hw hoffset hlen
    obtain ⟨hmem, hopLimit, hop, hle, htake⟩ := id hw
    have hiff := @le_offsetMinusOne w.op offset (by omega) hoffset
    rw [hop] at hiff
    refine ⟨fun hbad => ⟨w, if_pos (by rw [hop]; exact hiff.2 hbad)⟩, fun hpos hin => ?_⟩
    have hno : ¬ w.op ≤ offsetMinusOne offset := by
      omega
    obtain ⟨hgood, hbad⟩ := hw.copy hpos hin hlen
    show ∃ w', (if w.op ≤ offsetMinusOne offset then some (false, w)
      else (w.copy offset len).map fun p => (p.1, { w with mem := p.2, op := if p.1 = true then w.op + len else w.op })) = _ ∧ _
    rw [if_neg hno]
    by_cases hfits : out.length + len ≤ limit
    · obtain ⟨m', hcopy, hlen', hm'⟩ := hgood hfits
      rw [hcopy, upTo, decide_eq_true hfits]
      have hcopied := length_copyBack hpos hin len
      refine ⟨⟨m', w.op + len, w.opLimit⟩, rfl, fun _ => ⟨hlen', hopLimit, ?_, ?_, ?_⟩⟩
      · rw [hcopied, ← hop]
      · omega
      · rw [hcopied]
        exact hm'
    · rw [hbad (by omega), upTo, decide_eq_false hfits]
      exact ⟨_, rfl, fun h => absurd h hfits⟩

end KVStores.Snappy
