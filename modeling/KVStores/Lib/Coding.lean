import Mathlib.Data.List.Basic
import Mathlib.Tactic.Ring

/-!
# Numbers and slices as bytes

* `Groups`, `IsVarstring`: the bytes that the readers accept.

Each reader gets back what the writer was given, whatever comes behind it.
-/

namespace KVStores

open List Option

abbrev Bytes := List UInt8

/-- `n` in `k` bytes, the lowest byte first. -/
@[grind =] def littleEndian : ℕ → ℕ → Bytes
  | 0, _ => []
  | k + 1, n => UInt8.ofNat n :: littleEndian k (n / 256)

@[grind =] def ofLittleEndian : Bytes → ℕ
  | [] => 0
  | b :: bs => b.toNat + 256 * ofLittleEndian bs

@[simp] theorem littleEndian_length (k n : ℕ) : (littleEndian k n).length = k := by
  induction k generalizing n with
  | zero => rfl
  | succ k ih => rw [littleEndian, length_cons, ih]

/-- **Reading back** what was written, up to what fits. -/
theorem ofLittleEndian_littleEndian (k n : ℕ) : ofLittleEndian (littleEndian k n) = n % 256 ^ k := by
  induction k generalizing n with
  | zero => simp [littleEndian, ofLittleEndian, Nat.mod_one]
  | succ k ih =>
    have hbyte : (UInt8.ofNat n).toNat = n % 256 := by simp
    rw [littleEndian, ofLittleEndian, ih, hbyte, pow_succ, mul_comm (256 ^ k), Nat.mod_mul]

theorem ofLittleEndian_littleEndian_of_lt {k n : ℕ} (h : n < 256 ^ k) : ofLittleEndian (littleEndian k n) = n := by
  rw [ofLittleEndian_littleEndian, Nat.mod_eq_of_lt h]

theorem littleEndian_ofLittleEndian (bs : Bytes) : littleEndian bs.length (ofLittleEndian bs) = bs := by
  induction bs with
  | nil => rfl
  | cons b bs ih =>
    have hb : b.toNat < 256 := b.toNat_lt
    have hdiv : (b.toNat + 256 * ofLittleEndian bs) / 256 = ofLittleEndian bs := by omega
    have hbyte : UInt8.ofNat (b.toNat + 256 * ofLittleEndian bs) = b := by
      apply UInt8.toNat_inj.1
      rw [UInt8.toNat_ofNat']
      omega
    rw [length_cons, ofLittleEndian, littleEndian, hdiv, ih, hbyte]

theorem ofLittleEndian_lt (bs : Bytes) : ofLittleEndian bs < 256 ^ bs.length := by
  induction bs with
  | nil => simp [ofLittleEndian]
  | cons b bs ih =>
    have hb : b.toNat < 256 := b.toNat_lt
    rw [ofLittleEndian, length_cons, pow_succ]
    omega

/-- A byte with seven bits of `v` and more to come. -/
def moreByte (v : ℕ) : UInt8 := UInt8.ofNat (v % 128 + 128)

/-- `v`, seven bits a byte, in at most `k + 1` bytes. -/
@[grind =] def varintLoop : ℕ → ℕ → Bytes
  | 0, v => [UInt8.ofNat v]
  | k + 1, v => if 128 ≤ v then moreByte v :: varintLoop k (v / 128) else [UInt8.ofNat v]

/-- Up to `k` bytes that stand for a number, and what is behind them. -/
@[grind =] def getVarint : ℕ → ℕ → ℕ → Bytes → Option (ℕ × Bytes)
  | 0, _, _, _ => none
  | _ + 1, _, _, [] => none
  | k + 1, shift, result, b :: bs =>
    if 128 ≤ b.toNat then getVarint k (shift + 7) (result + (b.toNat - 128) * 2 ^ shift) bs
    else some (result + b.toNat * 2 ^ shift, bs)

theorem moreByte_toNat (v : ℕ) : (moreByte v).toNat = v % 128 + 128 := by
  rw [moreByte, UInt8.toNat_ofNat']
  omega

/-- **Reading back** a number that fits. -/
theorem getVarint_varintLoop : ∀ (k v shift result : ℕ) (rest : Bytes), v < 128 ^ (k + 1) →
    getVarint (k + 1) shift result (varintLoop k v ++ rest) = some (result + v * 2 ^ shift, rest) := by
  intro k
  induction k with
  | zero =>
    intro v shift result rest hv
    have hbyte : (UInt8.ofNat v).toNat = v := by rw [UInt8.toNat_ofNat']; omega
    rw [varintLoop, cons_append, getVarint, hbyte, if_neg (by omega), nil_append]
  | succ k ih =>
    intro v shift result rest hv
    unfold varintLoop
    by_cases h : 128 ≤ v
    · have hdiv : v / 128 < 128 ^ (k + 1) := by
        omega
      have hsum : v = v % 128 + v / 128 * 128 := by omega
      rw [if_pos h, cons_append, getVarint, moreByte_toNat, if_pos (by omega), ih _ _ _ _ hdiv, Nat.add_sub_cancel]
      congr 2
      conv_rhs => rw [hsum]
      ring
    · have hbyte : (UInt8.ofNat v).toNat = v := by rw [UInt8.toNat_ofNat']; omega
      rw [if_neg h, cons_append, getVarint, hbyte, if_neg h, nil_append]

theorem getVarint_append (more : Bytes) : ∀ {k shift result : ℕ} {input rest : Bytes} {v : ℕ},
    getVarint k shift result input = some (v, rest) →
    getVarint k shift result (input ++ more) = some (v, rest ++ more) ∧ rest.length < input.length := by
  intro k
  induction k with
  | zero =>
    intro shift result input rest v h
    cases h
  | succ k ih =>
    intro shift result input rest v h
    cases input with
    | nil => cases h
    | cons b input =>
      rw [getVarint] at h
      rw [cons_append, getVarint]
      by_cases hb : 128 ≤ b.toNat
      · rw [if_pos hb] at h ⊢
        obtain ⟨h1, h2⟩ := ih h
        exact ⟨h1, Nat.lt_succ_of_lt h2⟩
      · rw [if_neg hb] at h ⊢
        obtain ⟨rfl, rfl⟩ := Prod.mk.inj (Option.some.inj h)
        exact ⟨rfl, Nat.lt_succ_self _⟩

def encodeVarint32 (v : ℕ) : Bytes :=
  if v < 2 ^ 7 then [UInt8.ofNat v]
  else if v < 2 ^ 14 then [moreByte v, UInt8.ofNat (v / 2 ^ 7)]
  else if v < 2 ^ 21 then [moreByte v, moreByte (v / 2 ^ 7), UInt8.ofNat (v / 2 ^ 14)]
  else if v < 2 ^ 28 then [moreByte v, moreByte (v / 2 ^ 7), moreByte (v / 2 ^ 14), UInt8.ofNat (v / 2 ^ 21)]
  else [moreByte v, moreByte (v / 2 ^ 7), moreByte (v / 2 ^ 14), moreByte (v / 2 ^ 21), UInt8.ofNat (v / 2 ^ 28)]

def encodeVarint64 (v : ℕ) : Bytes := varintLoop 9 v

def getVarint32 (input : Bytes) : Option (ℕ × Bytes) := (getVarint 5 0 0 input).map fun r => (r.1 % 2 ^ 32, r.2)

def getVarint64 (input : Bytes) : Option (ℕ × Bytes) := (getVarint 10 0 0 input).map fun r => (r.1 % 2 ^ 64, r.2)

theorem encodeVarint32_eq (v : ℕ) : encodeVarint32 v = varintLoop 4 v := by
  unfold encodeVarint32
  simp only [varintLoop, Nat.div_div_eq_div_mul]
  norm_num only
  by_cases h7 : v < 128
  · rw [if_pos h7, if_neg (not_le.2 h7)]
  · have m0 : 128 ≤ v := not_lt.1 h7
    rw [if_neg h7, if_pos m0]
    by_cases h14 : v < 16384
    · have l1 : ¬128 ≤ v / 128 := by omega
      rw [if_pos h14, if_neg l1]
    · have m1 : 128 ≤ v / 128 := by omega
      rw [if_neg h14, if_pos m1]
      by_cases h21 : v < 2097152
      · have l2 : ¬128 ≤ v / 16384 := by omega
        rw [if_pos h21, if_neg l2]
      · have m2 : 128 ≤ v / 16384 := by omega
        rw [if_neg h21, if_pos m2]
        by_cases h28 : v < 268435456
        · have l3 : ¬128 ≤ v / 2097152 := by omega
          rw [if_pos h28, if_neg l3]
        · have m3 : 128 ≤ v / 2097152 := by omega
          rw [if_neg h28, if_pos m3]

theorem getVarint32_encode {v : ℕ} (h : v < 2 ^ 32) (rest : Bytes) : getVarint32 (encodeVarint32 v ++ rest) = some (v, rest) := by
  have h5 : v < 128 ^ 5 := lt_trans h (by decide)
  rw [getVarint32, encodeVarint32_eq, getVarint_varintLoop 4 v 0 0 rest h5, map_some]
  simp only [zero_add, pow_zero, mul_one, Nat.mod_eq_of_lt h]

theorem getVarint64_encode {v : ℕ} (h : v < 2 ^ 64) (rest : Bytes) : getVarint64 (encodeVarint64 v ++ rest) = some (v, rest) := by
  have h10 : v < 128 ^ 10 := lt_trans h (by decide)
  rw [getVarint64, encodeVarint64, getVarint_varintLoop 9 v 0 0 rest h10, map_some]
  simp only [zero_add, pow_zero, mul_one, Nat.mod_eq_of_lt h]

/-- `PutLengthPrefixedSlice`. -/
def lengthPrefixed (s : Bytes) : Bytes := encodeVarint32 (s.length % 2 ^ 32) ++ s

/-- `GetLengthPrefixedSlice`. -/
def getLengthPrefixed (input : Bytes) : Option (Bytes × Bytes) :=
  match getVarint32 input with
  | none => none
  | some (len, input) => if len ≤ input.length then some (input.take len, input.drop len) else none

variable {s : Bytes}

theorem getLengthPrefixed_lengthPrefixed (h : s.length < 2 ^ 32) (rest : Bytes) :
    getLengthPrefixed (lengthPrefixed s ++ rest) = some (s, rest) := by
  unfold getLengthPrefixed lengthPrefixed
  rw [append_assoc, Nat.mod_eq_of_lt h, getVarint32_encode h]
  dsimp only
  rw [if_pos (by rw [length_append]; omega), take_left, drop_left]

variable {input rest : Bytes}

theorem getLengthPrefixed_append (more : Bytes) (h : getLengthPrefixed input = some (s, rest)) :
    getLengthPrefixed (input ++ more) = some (s, rest ++ more) ∧ rest.length < input.length := by
  unfold getLengthPrefixed getVarint32 at h ⊢
  cases hv : getVarint 5 0 0 input with
  | none => simp [hv] at h
  | some r =>
    obtain ⟨v, rest'⟩ := r
    obtain ⟨h1, h2⟩ := getVarint_append more hv
    rw [hv] at h
    rw [h1]
    simp only [map_some] at h ⊢
    by_cases hle : v % 2 ^ 32 ≤ rest'.length
    · rw [if_pos hle] at h
      obtain ⟨rfl, rfl⟩ := Prod.mk.inj (Option.some.inj h)
      rw [if_pos (by rw [length_append]; omega), take_append_of_le_length hle, drop_append_of_le_length hle]
      refine ⟨rfl, ?_⟩
      rw [length_drop]
      omega
    · rw [if_neg hle] at h
      cases h

/-- Up to `k` bytes with seven bits each, the highest bit set in all but the last, and the number they stand for. -/
inductive Groups : ℕ → Bytes → ℕ → Prop
  | last {k : ℕ} {b : UInt8} (h : b.toNat < 128) : Groups (k + 1) [b] b.toNat
  | more {k v : ℕ} {b : UInt8} {bs : Bytes} (h : 128 ≤ b.toNat) (hbs : Groups k bs v) : Groups (k + 1) (b :: bs) (b.toNat - 128 + v * 128)

theorem getVarint_groups (rest : Bytes) : ∀ {k v : ℕ} {bs : Bytes}, Groups k bs v → ∀ shift result : ℕ,
    getVarint k shift result (bs ++ rest) = some (result + v * 2 ^ shift, rest) := by
  intro k v bs h
  induction h with
  | last h =>
    intro shift result
    rw [singleton_append, getVarint, if_neg (not_le.2 h)]
  | more h _ ih =>
    intro shift result
    rw [cons_append, getVarint, if_pos h, ih, pow_add]
    congr 2
    ring

theorem groups_of_getVarint : ∀ {k shift result : ℕ} {input rest : Bytes} {n : ℕ}, getVarint k shift result input = some (n, rest) →
    ∃ bs v, Groups k bs v ∧ input = bs ++ rest ∧ n = result + v * 2 ^ shift := by
  intro k
  induction k with
  | zero =>
    intro shift result input rest n h
    cases h
  | succ k ih =>
    intro shift result input rest n h
    cases input with
    | nil => cases h
    | cons b input =>
      rw [getVarint] at h
      by_cases hb : 128 ≤ b.toNat
      · rw [if_pos hb] at h
        obtain ⟨bs, v, hbs, rfl, rfl⟩ := ih h
        refine ⟨b :: bs, _, .more hb hbs, rfl, ?_⟩
        ring
      · rw [if_neg hb] at h
        obtain ⟨rfl, rfl⟩ := Prod.mk.inj (Option.some.inj h)
        exact ⟨[b], _, .last (not_le.1 hb), rfl, rfl⟩

/-- The bytes of a number of 32 bits: five at most; what does not fit in 32 bits is dropped. -/
def IsVarint32 (bs : Bytes) (n : ℕ) : Prop := ∃ v, Groups 5 bs v ∧ n = v % 2 ^ 32

theorem getVarint32_iff {n : ℕ} : getVarint32 input = some (n, rest) ↔ ∃ bs, IsVarint32 bs n ∧ input = bs ++ rest := by
  unfold getVarint32
  constructor
  · intro h
    obtain ⟨⟨v, rest'⟩, hv, heq⟩ := map_eq_some_iff.1 h
    obtain ⟨rfl, rfl⟩ := Prod.mk.inj heq
    obtain ⟨bs, v, hbs, rfl, rfl⟩ := groups_of_getVarint hv
    exact ⟨bs, ⟨v, hbs, by simp⟩, rfl⟩
  · rintro ⟨bs, ⟨v, hbs, rfl⟩, rfl⟩
    rw [getVarint_groups rest hbs 0 0]
    simp

def IsVarstring (bytes s : Bytes) : Prop := ∃ bs, IsVarint32 bs s.length ∧ bytes = bs ++ s

theorem getLengthPrefixed_iff : getLengthPrefixed input = some (s, rest) ↔ ∃ bytes, IsVarstring bytes s ∧ input = bytes ++ rest := by
  unfold getLengthPrefixed
  constructor
  · intro h
    cases hv : getVarint32 input with
    | none =>
      rw [hv] at h
      cases h
    | some r =>
      obtain ⟨len, input'⟩ := r
      rw [hv] at h
      dsimp only at h
      obtain ⟨bs, hbs, rfl⟩ := getVarint32_iff.1 hv
      by_cases hlen : len ≤ input'.length
      · rw [if_pos hlen] at h
        obtain ⟨rfl, rfl⟩ := Prod.mk.inj (Option.some.inj h)
        refine ⟨bs ++ input'.take len, ⟨bs, ?_, rfl⟩, ?_⟩
        · rwa [length_take_of_le hlen]
        · rw [append_assoc, take_append_drop]
      · rw [if_neg hlen] at h
        cases h
  · rintro ⟨bytes, ⟨bs, hbs, rfl⟩, rfl⟩
    rw [append_assoc, getVarint32_iff.2 ⟨bs, hbs, rfl⟩]
    dsimp only
    rw [if_pos (by rw [length_append]; omega), take_left, drop_left]

theorem length_of_getLengthPrefixed (h : getLengthPrefixed input = some (s, rest)) : s.length < 2 ^ 32 := by
  obtain ⟨bytes, ⟨bs, ⟨v, -, hlen⟩, -⟩, -⟩ := getLengthPrefixed_iff.1 h
  rw [hlen]
  exact Nat.mod_lt _ (by decide)

end KVStores
