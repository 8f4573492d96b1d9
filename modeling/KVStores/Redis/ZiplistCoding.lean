import KVStores.Redis.Ziplist
import Mathlib.Tactic.IntervalCases
import Mathlib.Tactic.Positivity

/-!
# Entries of ziplists

What is read back from an entry, whatever stands before and behind it.
-/

namespace KVStores.Redis.Ziplist

open List

theorem ok_bind {ε α β : Type} (a : α) (f : α → Except ε β) : (Except.ok a : Except ε α).bind f = f a := rfl

variable {a b c bs : List UInt8} {x : UInt8} {p n : ℕ}

theorem length_snoc : a.length + 1 = (a ++ [x]).length := by rw [length_append, length_singleton]

theorem byteAt_at (hp : p = a.length) : byteAt (a ++ x :: b) p = .ok x := by
  rw [byteAt, Memory.cell_at hp]
  rfl

theorem bytesAt_at (hp : p = a.length) (hn : n = b.length) : bytesAt (a ++ b ++ c) p n = .ok b := by
  rw [bytesAt, Memory.read_at hp hn]
  rfl

theorem store_at (hp : p = a.length) (hbs : bs.length = b.length) : store (a ++ b ++ c) p bs = .ok (a ++ bs ++ c) := by
  rw [store, Memory.write_at hp hbs]
  rfl

variable {v : ℤ}

theorem zipIntEncoding_cases (h1 : -2 ^ 63 ≤ v) (h2 : v < 2 ^ 63) :
    (0 ≤ v ∧ v ≤ 12 ∧ zipIntEncoding v = 0xf1 + v.toNat) ∨ (-2 ^ 7 ≤ v ∧ v < 2 ^ 7 ∧ zipIntEncoding v = 0xfe) ∨
      (-2 ^ 15 ≤ v ∧ v < 2 ^ 15 ∧ zipIntEncoding v = 0xc0) ∨ (-2 ^ 23 ≤ v ∧ v < 2 ^ 23 ∧ zipIntEncoding v = 0xf0) ∨
      (-2 ^ 31 ≤ v ∧ v < 2 ^ 31 ∧ zipIntEncoding v = 0xd0) ∨ (-2 ^ 63 ≤ v ∧ v < 2 ^ 63 ∧ zipIntEncoding v = 0xe0) := by
  unfold zipIntEncoding
  by_cases h : 0 ≤ v ∧ v ≤ 12
  · exact Or.inl ⟨h.1, h.2, if_pos h⟩
  rw [if_neg h]
  by_cases h : -2 ^ 7 ≤ v ∧ v < 2 ^ 7
  · exact Or.inr (Or.inl ⟨h.1, h.2, if_pos h⟩)
  rw [if_neg h]
  by_cases h : -2 ^ 15 ≤ v ∧ v < 2 ^ 15
  · exact Or.inr (Or.inr (Or.inl ⟨h.1, h.2, if_pos h⟩))
  rw [if_neg h]
  by_cases h : -2 ^ 23 ≤ v ∧ v < 2 ^ 23
  · exact Or.inr (Or.inr (Or.inr (Or.inl ⟨h.1, h.2, if_pos h⟩)))
  rw [if_neg h]
  by_cases h : -2 ^ 31 ≤ v ∧ v < 2 ^ 31
  · exact Or.inr (Or.inr (Or.inr (Or.inr (Or.inl ⟨h.1, h.2, if_pos h⟩))))
  rw [if_neg h]
  exact Or.inr (Or.inr (Or.inr (Or.inr (Or.inr ⟨h1, h2, rfl⟩))))

theorem signed_mod (bits : ℕ) (hbits : 0 < bits) (h1 : -2 ^ (bits - 1) ≤ v) (h2 : v < 2 ^ (bits - 1)) :
    signed bits (v % 2 ^ bits).toNat = v := by
  obtain ⟨k, rfl⟩ : ∃ k, bits = k + 1 := ⟨bits - 1, by omega⟩
  rw [Nat.add_sub_cancel] at h1 h2
  have hpow : (2 : ℤ) ^ (k + 1) = 2 * 2 ^ k := by rw [pow_succ, mul_comm]
  have hcast : ((2 ^ k : ℕ) : ℤ) = 2 ^ k := by push_cast; rfl
  rw [signed, Nat.add_sub_cancel, hpow]
  by_cases hneg : v < 0
  · have hmod : v % (2 * 2 ^ k) = v + 2 * 2 ^ k := by
      rw [← Int.add_emod_right, Int.emod_eq_of_lt (by omega) (by omega)]
    omega
  · rw [Int.emod_eq_of_lt (by omega) (by omega), if_pos (by omega)]
    omega

theorem signed_littleEndian {bits : ℕ} (k : ℕ) (hbits : bits = 8 * k) (hk : 0 < k) (h1 : -2 ^ (bits - 1) ≤ v) (h2 : v < 2 ^ (bits - 1)) :
    signed bits (ofLittleEndian (littleEndian k (v % 2 ^ bits).toNat)) = v := by
  subst hbits
  have hpow : (256 : ℕ) ^ k = 2 ^ (8 * k) := by
    rw [pow_mul]
    norm_num
  have hcast : ((2 ^ (8 * k) : ℕ) : ℤ) = 2 ^ (8 * k) := by push_cast; rfl
  have hpos : (0 : ℤ) < 2 ^ (8 * k) := by positivity
  rw [ofLittleEndian_littleEndian_of_lt (by rw [hpow]; omega)]
  exact signed_mod (8 * k) (by omega) h1 h2

theorem zipSaveInteger_length (h1 : -2 ^ 63 ≤ v) (h2 : v < 2 ^ 63) :
    (zipSaveInteger v (zipIntEncoding v)).length = zipIntSize (zipIntEncoding v) := by
  rcases zipIntEncoding_cases h1 h2 with ⟨h3, h4, he⟩ | ⟨-, -, he⟩ | ⟨-, -, he⟩ | ⟨-, -, he⟩ | ⟨-, -, he⟩ | ⟨-, -, he⟩
  · obtain ⟨n, rfl⟩ := Int.eq_ofNat_of_zero_le h3
    have hn : n ≤ 12 := by omega
    interval_cases n <;> rfl
  all_goals
    rw [he]
    unfold zipSaveInteger zipIntSize
    simp

/-- **An integer reads back.** -/
theorem zipLoadInteger_save (h1 : -2 ^ 63 ≤ v) (h2 : v < 2 ^ 63) :
    zipLoadInteger (zipSaveInteger v (zipIntEncoding v)) (zipIntEncoding v) = v := by
  rcases zipIntEncoding_cases h1 h2 with ⟨h3, h4, he⟩ | ⟨h3, h4, he⟩ | ⟨h3, h4, he⟩ | ⟨h3, h4, he⟩ | ⟨h3, h4, he⟩ | ⟨h3, h4, he⟩
  · obtain ⟨n, rfl⟩ := Int.eq_ofNat_of_zero_le h3
    have hn : n ≤ 12 := by omega
    interval_cases n <;> rfl
  · rw [he]
    exact signed_littleEndian 1 rfl (by omega) h3 h4
  · rw [he]
    exact signed_littleEndian 2 rfl (by omega) h3 h4
  · rw [he]
    -- the lowest of the four bytes is 0
    have hlow : littleEndian 4 (v * 2 ^ 8 % 2 ^ 32).toNat = 0 :: (littleEndian 4 (v * 2 ^ 8 % 2 ^ 32).toNat).drop 1 := by
      have hzero : (v * 2 ^ 8 % 2 ^ 32).toNat % 256 = 0 := by omega
      rw [littleEndian, drop_succ_cons, drop_zero]
      congr 1
      apply UInt8.toNat_inj.1
      exact hzero
    change signed 32 (ofLittleEndian (0 :: (littleEndian 4 (v * 2 ^ 8 % 2 ^ 32).toNat).drop 1)) / 2 ^ 8 = v
    rw [← hlow, signed_littleEndian 4 rfl (by omega) (by omega) (by omega)]
    exact Int.mul_ediv_cancel v (by norm_num)
  · rw [he]
    exact signed_littleEndian 4 rfl (by omega) h3 h4
  · have hload : ∀ bs, zipLoadInteger bs 0xe0 = signed 64 (ofLittleEndian bs) := fun _ => rfl
    have hsave : zipSaveInteger v 0xe0 = littleEndian 8 (v % 2 ^ 64).toNat := rfl
    rw [he, hload, hsave]
    exact signed_littleEndian 8 rfl (by omega) h3 h4

theorem zipIntEncoding_range (h1 : -2 ^ 63 ≤ v) (h2 : v < 2 ^ 63) : 0xc0 ≤ zipIntEncoding v ∧ zipIntEncoding v < 0xff := by
  rcases zipIntEncoding_cases h1 h2 with ⟨h3, h4, he⟩ | ⟨-, -, he⟩ | ⟨-, -, he⟩ | ⟨-, -, he⟩ | ⟨-, -, he⟩ | ⟨-, -, he⟩ <;> omega

theorem zipDecodeLength_str (hn : n < 2 ^ 32) :
    ∃ encoding, encoding < 0xc0 ∧ zipDecodeLength (a ++ zipEncodeLength 0 n ++ c) a.length = .ok (encoding, (zipEncodeLength 0 n).length, n) := by
  unfold zipEncodeLength
  rw [if_pos (by decide)]
  by_cases h1 : n ≤ 0x3f
  · rw [if_pos h1]
    have hbyte : (UInt8.ofNat n).toNat = n := by
      rw [UInt8.toNat_ofNat']
      omega
    have hzero : n / 64 * 64 = 0 := by omega
    have hmod : n % 64 = n := by omega
    refine ⟨0, by decide, ?_⟩
    rw [zipDecodeLength, append_assoc, singleton_append, byteAt_at rfl, ok_bind, hbyte, if_pos (by omega), hzero, hmod]
    rfl
  rw [if_neg h1]
  by_cases h2 : n ≤ 0x3fff
  · rw [if_pos h2]
    have hfirst : (UInt8.ofNat (64 + n / 256 % 64)).toNat = 64 + n / 256 := by
      rw [UInt8.toNat_ofNat']
      omega
    have hsecond : (UInt8.ofNat n).toNat = n % 256 := UInt8.toNat_ofNat'
    have hencoding : (64 + n / 256) / 64 * 64 = 64 := by omega
    have hlen : (64 + n / 256) % 64 * 256 + n % 256 = n := by omega
    refine ⟨64, by decide, ?_⟩
    have hcut : a ++ [UInt8.ofNat (64 + n / 256 % 64), UInt8.ofNat n] ++ c = (a ++ [UInt8.ofNat (64 + n / 256 % 64)]) ++ UInt8.ofNat n :: c := by
      rw [append_assoc, append_assoc]
      rfl
    have hread := byteAt_at (a := a ++ [UInt8.ofNat (64 + n / 256 % 64)]) (x := UInt8.ofNat n) (b := c) (p := a.length + 1) length_snoc
    rw [← hcut] at hread
    have hread' : byteAt (a ++ [UInt8.ofNat (64 + n / 256 % 64), UInt8.ofNat n] ++ c) a.length = .ok (UInt8.ofNat (64 + n / 256 % 64)) := by
      rw [append_assoc]
      exact byteAt_at rfl
    rw [zipDecodeLength, hread', ok_bind, hfirst, if_pos (by omega), hencoding]
    rw [if_neg (by decide), if_pos rfl, hread, ok_bind, hsecond, hlen]
    rfl
  · rw [if_neg h2]
    refine ⟨128, by decide, ?_⟩
    have hread' : byteAt (a ++ 128 :: bigEndian 4 n ++ c) a.length = .ok 128 := by
      rw [append_assoc]
      exact byteAt_at rfl
    have hread : bytesAt (a ++ 128 :: bigEndian 4 n ++ c) (a.length + 1) 4 = .ok (bigEndian 4 n) := by
      have hcut : a ++ 128 :: bigEndian 4 n = a ++ [128] ++ bigEndian 4 n := by
        rw [append_assoc]
        rfl
      rw [hcut]
      exact bytesAt_at length_snoc (bigEndian_length 4 n).symm
    rw [zipDecodeLength, hread', ok_bind]
    change (bytesAt (a ++ 128 :: bigEndian 4 n ++ c) (a.length + 1) 4).bind _ = _
    rw [hread, ok_bind, ofBigEndian_bigEndian_of_lt hn, length_cons, bigEndian_length]
    rfl

theorem zipDecodeLength_int {encoding : ℕ} (h1 : 0xc0 ≤ encoding) (h2 : encoding < 0xff) :
    zipDecodeLength (a ++ zipEncodeLength encoding n ++ c) a.length = .ok (encoding, 1, zipIntSize encoding) := by
  have hbyte : (UInt8.ofNat encoding).toNat = encoding := by
    rw [UInt8.toNat_ofNat']
    omega
  rw [zipEncodeLength, if_neg (by omega), zipDecodeLength, append_assoc, singleton_append, byteAt_at rfl, ok_bind, hbyte, if_neg (by omega)]

/-- The bytes of an entry behind the length of the entry before it. -/
def zipPayload (s : List UInt8) : List UInt8 := zipEncodeLength (zipContents s).1 s.length ++ (zipContents s).2

theorem zipPayload_pos (s : List UInt8) : 0 < (zipPayload s).length := by
  have hpos : ∀ e n, 0 < (zipEncodeLength e n).length := by
    intro e n
    unfold zipEncodeLength
    split_ifs <;> exact Nat.succ_pos _
  rw [zipPayload, length_append]
  exact Nat.add_pos_left (hpos _ _) _

variable {s : List UInt8}

theorem length_of_payload (h : (zipPayload s).length < 2 ^ 32) : s.length < 2 ^ 32 := by
  rw [zipPayload, length_append] at h
  unfold zipContents zipTryEncoding at h
  by_cases hlen : 32 ≤ s.length ∨ s.length = 0
  · rw [if_pos hlen] at h
    dsimp only at h
    omega
  · omega

/-- **The encoding, the length and the contents** of an entry. -/
theorem zipPayload_spec (hs : s.length < 2 ^ 32) : ∃ encoding, zipDecodeLength (a ++ zipPayload s ++ c) a.length =
      .ok (encoding, (zipEncodeLength (zipContents s).1 s.length).length, (zipContents s).2.length) ∧
    (encoding < 0xc0 → (zipContents s).2 = s) ∧
    (¬ encoding < 0xc0 → (zipContents s).2.length = zipIntSize encoding ∧ ll2string (zipLoadInteger (zipContents s).2 encoding) = s) := by
  rw [zipPayload, ← append_assoc a, append_assoc]
  cases hv : zipTryEncoding s with
  | none =>
    have hcontents : zipContents s = (0, s) := by rw [zipContents, hv]
    rw [hcontents]
    obtain ⟨encoding, h1, h2⟩ := zipDecodeLength_str (a := a) (c := s ++ c) hs
    exact ⟨encoding, h2, fun _ => rfl, fun hc => absurd h1 hc⟩
  | some v =>
    have hcontents : zipContents s = (zipIntEncoding v, zipSaveInteger v (zipIntEncoding v)) := by rw [zipContents, hv]
    obtain ⟨h1, h2⟩ := v.2
    obtain ⟨h3, h4⟩ := zipIntEncoding_range h1 h2
    rw [hcontents]
    refine ⟨zipIntEncoding v, ?_, fun hc => by omega, fun _ => ⟨zipSaveInteger_length h1 h2, ?_⟩⟩
    · have hsize : (zipEncodeLength (zipIntEncoding v) s.length).length = 1 := by
        rw [zipEncodeLength, if_neg (by omega)]
        rfl
      rw [zipDecodeLength_int h3 h4, zipSaveInteger_length h1 h2, hsize]
    · rw [zipLoadInteger_save h1 h2]
      exact (zipTryEncoding_numeral hv).symm

/-- An entry: whether the length of the entry before it takes five bytes, and its string. -/
structure ZipItem where
  large : Bool
  str : List UInt8

def prevField (large : Bool) (prev : ℕ) : List UInt8 := if large then zipPrevEncodeLengthForceLarge prev else [UInt8.ofNat prev]

def prevSize (large : Bool) : ℕ := if large then 5 else 1

def ZipItem.bytes (it : ZipItem) (prev : ℕ) : List UInt8 := prevField it.large prev ++ zipPayload it.str

def ZipItem.rawLen (it : ZipItem) : ℕ := prevSize it.large + (zipPayload it.str).length

def FieldOk (large : Bool) (prev : ℕ) : Prop := (large = true ∨ prev < zipBiglen) ∧ prev < 2 ^ 32

variable {large : Bool} {prev : ℕ} {it : ZipItem}

@[simp] theorem prevField_length : (prevField large prev).length = prevSize large := by
  cases large with
  | false => rfl
  | true => exact congrArg (· + 1) (littleEndian_length 4 prev)

theorem ZipItem.bytes_eq (it : ZipItem) (prev : ℕ) : it.bytes prev = prevField it.large prev ++ zipPayload it.str := rfl

theorem ZipItem.bytes_length : (it.bytes prev).length = it.rawLen := by rw [ZipItem.bytes, length_append, prevField_length, ZipItem.rawLen]

theorem ZipItem.rawLen_ge (it : ZipItem) : 2 ≤ it.rawLen := by
  have hpos := zipPayload_pos it.str
  have hsize : 1 ≤ prevSize it.large := by
    unfold prevSize
    split_ifs <;> decide
  rw [ZipItem.rawLen]
  omega

theorem zipPrevEncodeLength_eq (len : ℕ) : zipPrevEncodeLength len = prevField (decide (zipBiglen ≤ len)) len := by
  unfold zipPrevEncodeLength prevField
  by_cases h : len < zipBiglen
  · rw [if_pos h, decide_eq_false (not_le.2 h)]
    rfl
  · rw [if_neg h, decide_eq_true (not_lt.1 h)]
    rfl

theorem prevField_head (h : FieldOk large prev) :
    ∃ x l, prevField large prev = x :: l ∧ x ≠ zipEnd ∧ (large = false → x.toNat = prev ∧ l = []) ∧ (x.toNat < zipBiglen ↔ large = false) := by
  cases large with
  | false =>
    have hlt : prev < 254 := h.1.resolve_left (by decide)
    have hbyte : (UInt8.ofNat prev).toNat = prev := by
      rw [UInt8.toNat_ofNat']
      omega
    refine ⟨UInt8.ofNat prev, [], rfl, fun hc => ?_, fun _ => ⟨hbyte, rfl⟩, by rw [hbyte]; exact iff_of_true hlt rfl⟩
    have hend := congrArg UInt8.toNat hc
    rw [hbyte] at hend
    change prev = 255 at hend
    omega
  | true => exact ⟨254, littleEndian 4 prev, rfl, by decide, fun hc => (by cases hc), by decide⟩

theorem zipDecodePrevlensize_at (h : FieldOk large prev) : zipDecodePrevlensize (a ++ (prevField large prev ++ c)) a.length = .ok (prevSize large) := by
  obtain ⟨x, l, hfield, -, -, hlarge⟩ := prevField_head h
  rw [hfield, zipDecodePrevlensize, cons_append, byteAt_at rfl, ok_bind]
  cases large with
  | false => rw [if_pos (hlarge.2 rfl)]; rfl
  | true => rw [if_neg fun hc => (by cases hlarge.1 hc)]; rfl

theorem zipDecodePrevlen_at (h : FieldOk large prev) : zipDecodePrevlen (a ++ (prevField large prev ++ c)) a.length = .ok (prevSize large, prev) := by
  cases large with
  | false =>
    obtain ⟨x, l, hfield, -, hbyte, hlarge⟩ := prevField_head h
    rw [hfield, zipDecodePrevlen, cons_append, byteAt_at rfl, ok_bind, if_pos (hlarge.2 rfl), (hbyte rfl).1]
    rfl
  | true =>
    have hcut : a ++ (prevField true prev ++ c) = (a ++ [254]) ++ littleEndian 4 prev ++ c := by
      rw [append_assoc, append_assoc]
      rfl
    have hfirst : byteAt (a ++ (prevField true prev ++ c)) a.length = .ok 254 := byteAt_at rfl
    have hrest : bytesAt (a ++ (prevField true prev ++ c)) (a.length + 1) 4 = .ok (littleEndian 4 prev) := by
      rw [hcut]
      exact bytesAt_at length_snoc (littleEndian_length 4 prev).symm
    rw [zipDecodePrevlen, hfirst, ok_bind, if_neg (by decide), hrest, ok_bind, ofLittleEndian_littleEndian_of_lt h.2]
    rfl

def ZipItem.Ok (it : ZipItem) (prev : ℕ) : Prop := FieldOk it.large prev ∧ it.rawLen < 2 ^ 32

theorem ZipItem.Ok.str_lt (h : it.Ok prev) : it.str.length < 2 ^ 32 := by
  have hraw := h.2
  rw [ZipItem.rawLen] at hraw
  exact length_of_payload (by omega)

theorem ZipItem.cut (a c : List UInt8) (it : ZipItem) (prev : ℕ) :
    a ++ (it.bytes prev ++ c) = (a ++ prevField it.large prev) ++ zipPayload it.str ++ c := by
  rw [ZipItem.bytes, append_assoc, append_assoc, append_assoc]

theorem byteAt_item (h : it.Ok prev) : ∃ x, x ≠ zipEnd ∧ byteAt (a ++ (it.bytes prev ++ c)) a.length = .ok x := by
  obtain ⟨x, l, hfield, hend, -, -⟩ := prevField_head h.1
  refine ⟨x, hend, ?_⟩
  rw [ZipItem.bytes, hfield, cons_append, cons_append]
  exact byteAt_at rfl

theorem zipRawEntryLength_item (h : it.Ok prev) : zipRawEntryLength (a ++ (it.bytes prev ++ c)) a.length = .ok it.rawLen := by
  have hprev := zipDecodePrevlensize_at (a := a) (c := zipPayload it.str ++ c) h.1
  rw [← append_assoc (prevField _ _)] at hprev
  obtain ⟨encoding, h1, -, -⟩ := zipPayload_spec (a := a ++ prevField it.large prev) (c := c) h.str_lt
  rw [length_append, prevField_length] at h1
  rw [zipRawEntryLength, ZipItem.bytes, hprev, ok_bind, ← ZipItem.bytes, ZipItem.cut, h1, ok_bind, ZipItem.rawLen, zipPayload, length_append,
    Nat.add_assoc]

theorem zipEntry_item (h : it.Ok prev) : ∃ e, zipEntry (a ++ (it.bytes prev ++ c)) a.length = .ok e ∧ e.prevrawlensize = prevSize it.large ∧
    e.prevrawlen = prev ∧ e.headersize + e.len = it.rawLen ∧
    (e.encoding < 0xc0 → bytesAt (a ++ (it.bytes prev ++ c)) (a.length + e.headersize) e.len = .ok it.str) ∧
    (¬ e.encoding < 0xc0 → ∃ bs, bytesAt (a ++ (it.bytes prev ++ c)) (a.length + e.headersize) (zipIntSize e.encoding) = .ok bs ∧
      ll2string (zipLoadInteger bs e.encoding) = it.str) := by
  have hprev := zipDecodePrevlen_at (a := a) (c := zipPayload it.str ++ c) h.1
  rw [← append_assoc (prevField _ _)] at hprev
  obtain ⟨encoding, h1, h2, h3⟩ := zipPayload_spec (a := a ++ prevField it.large prev) (c := c) h.str_lt
  rw [length_append, prevField_length] at h1
  have hcontents : ∀ {n : ℕ}, n = (zipContents it.str).2.length → bytesAt (a ++ (it.bytes prev ++ c))
      (a.length + (prevSize it.large + (zipEncodeLength (zipContents it.str).1 it.str.length).length)) n = .ok (zipContents it.str).2 := by
    intro n hn
    rw [ZipItem.cut, zipPayload, ← append_assoc]
    exact bytesAt_at (by rw [length_append, length_append, prevField_length, Nat.add_assoc]) hn
  refine ⟨⟨prevSize it.large, prev, (zipEncodeLength (zipContents it.str).1 it.str.length).length, (zipContents it.str).2.length, encoding⟩, ?_, rfl, rfl,
    ?_, fun hstr => ?_, fun hint => ⟨_, hcontents (h3 hint).1.symm, (h3 hint).2⟩⟩
  · rw [zipEntry, ZipItem.bytes, hprev, ok_bind]
    rw [← ZipItem.bytes, ZipItem.cut, h1, ok_bind]
  · rw [Zlentry.headersize, ZipItem.rawLen, zipPayload, length_append, Nat.add_assoc]
  · rw [Zlentry.headersize, hcontents rfl, h2 hstr]

theorem ziplistGet_item (h : it.Ok prev) : ziplistGet (a ++ (it.bytes prev ++ c)) a.length = .ok (some it.str) := by
  obtain ⟨x, hx, hfirst⟩ := byteAt_item (a := a) (c := c) h
  obtain ⟨e, h1, -, -, -, h2, h3⟩ := zipEntry_item (a := a) (c := c) h
  rw [ziplistGet, hfirst, ok_bind, if_neg hx, h1, ok_bind]
  by_cases hstr : e.encoding < 0xc0
  · rw [if_pos hstr, h2 hstr, ok_bind]
  · obtain ⟨bs, h4, h5⟩ := h3 hstr
    rw [if_neg hstr, h4, ok_bind, h5]

end KVStores.Redis.Ziplist
