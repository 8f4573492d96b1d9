import KVStores.Lib.Lanes
import KVStores.Redis.Bitops

/-!
# Counting bits
-/

namespace KVStores.Redis.Bitops

open List Option

open Lanes (word IsBytes)
open StringType (Obj Reply)

def ones (b : UInt8) : ℕ := (List.range 8).countP fun i => b.toNat.testBit i

def onesIn (s : List UInt8) : ℕ := (s.map ones).sum

def pairSums (d : ℕ) : ℕ := d - (d / 2 ^ 1 &&& 85)

def halfSums (d : ℕ) : ℕ := (pairSums d / 2 ^ 0 &&& 51) + (pairSums d / 2 ^ 2 &&& 51)

def byteSum (d : ℕ) : ℕ := halfSums d + halfSums d / 16 &&& 15

theorem stages_bounded : (List.range 256).all fun d =>
    decide (pairSums d < 256) && (decide (halfSums d / 16 ≤ 4 ∧ halfSums d % 16 ≤ 4) && decide (byteSum d ≤ 8)) := by decide +kernel

theorem map_byteSum : (List.range 256).map byteSum = bitsinbyte := by decide +kernel

theorem map_ones : ((List.range 256).map fun d => ones (UInt8.ofNat d)) = bitsinbyte := by decide +kernel

/-- **The bit tricks on one byte.** -/
theorem byte_stages {d : ℕ} (h : d < 256) :
    pairSums d < 256 ∧ (halfSums d / 16 ≤ 4 ∧ halfSums d % 16 ≤ 4) ∧ byteSum d ≤ 8 ∧ byteSum d = ones (UInt8.ofNat d) ∧
      bitsinbyte.getD d 0 = ones (UInt8.ofNat d) := by
  have hbounds := List.all_eq_true.1 stages_bounded d (mem_range.2 h)
  rw [Bool.and_eq_true, Bool.and_eq_true, decide_eq_true_eq, decide_eq_true_eq, decide_eq_true_eq] at hbounds
  obtain ⟨hpairs, hhalves, hsum⟩ := hbounds
  -- the table has the sums, and it has the bits that are set
  have hat : ∀ f : ℕ → ℕ, ((List.range 256).map f).getD d 0 = f d := by
    intro f
    rw [getD_eq_getElem?_getD, List.getElem?_map, List.getElem?_range h, map_some, getD_some]
  have htable : bitsinbyte.getD d 0 = byteSum d := by rw [← map_byteSum, hat]
  have hones : bitsinbyte.getD d 0 = ones (UInt8.ofNat d) := by rw [← map_ones, hat]
  exact ⟨hpairs, hhalves, hsum, htable.symm.trans hones, hones⟩

theorem bitsinbyte_eq (b : UInt8) : bitsinbyte.getD b.toNat 0 = ones b := by
  rw [(byte_stages b.toNat_lt).2.2.2.2, UInt8.ofNat_toNat]

theorem toNat_shiftRight_land {aux k c : UInt32} {L : List ℕ} {m : ℕ} (hL : IsBytes L) (haux : aux.toNat = word L) (hk : k.toNat ≤ 8)
    (hm : m < 2 ^ (8 - k.toNat)) (hc : c.toNat = word (List.replicate L.length m)) :
    ((aux >>> k) &&& c).toNat = word (L.map fun d => d / 2 ^ k.toNat &&& m) := by
  rw [UInt32.toNat_and, UInt32.toNat_shiftRight, Nat.mod_eq_of_lt (by omega), Nat.shiftRight_eq_div_pow, haux, hc, Lanes.shiftRight_land_word hk hm hL]

theorem highest_byte {c₀ c₁ c₂ c₃ : ℕ} (h₀ : c₀ ≤ 8) (h₁ : c₁ ≤ 8) (h₂ : c₂ ≤ 8) (h₃ : c₃ ≤ 8) :
    (c₀ + 256 * (c₁ + 256 * (c₂ + 256 * c₃))) * 16843009 % 4294967296 / 16777216 = c₀ + c₁ + c₂ + c₃ := by
  have hproduct : (c₀ + 256 * (c₁ + 256 * (c₂ + 256 * c₃))) * 16843009 =
      c₀ + 256 * (c₀ + c₁) + 65536 * (c₀ + c₁ + c₂) + 16777216 * (c₀ + c₁ + c₂ + c₃) +
        4294967296 * (c₁ + c₂ + c₃ + 256 * (c₂ + c₃) + 65536 * c₃) := by ring
  rw [hproduct, Nat.add_mul_mod_self_left, Nat.mod_eq_of_lt (by omega)]
  omega

theorem wordBits_toNat (b₀ b₁ b₂ b₃ : UInt8) :
    (wordBits (UInt32.ofNat (ofLittleEndian [b₀, b₁, b₂, b₃]))).toNat = ones b₀ + ones b₁ + ones b₂ + ones b₃ := by
  obtain ⟨L, hLdef⟩ : ∃ L, L = [b₀.toNat, b₁.toNat, b₂.toNat, b₃.toNat] := ⟨_, rfl⟩
  have hL : IsBytes L := hLdef ▸ Lanes.isBytes_map_toNat [b₀, b₁, b₂, b₃]
  have hlen : L.length = 4 := by rw [hLdef]; rfl
  have haux : (UInt32.ofNat (ofLittleEndian [b₀, b₁, b₂, b₃])).toNat = word L := by
    have hlt : ofLittleEndian [b₀, b₁, b₂, b₃] < 2 ^ 32 := lt_of_lt_of_eq (ofLittleEndian_lt [b₀, b₁, b₂, b₃]) (by norm_num)
    rw [UInt32.toNat_ofNat', Nat.mod_eq_of_lt hlt, hLdef]
    exact (Lanes.word_map_toNat [b₀, b₁, b₂, b₃]).symm
  have hsum : ∀ f : ℕ → ℕ, word (L.map f) = f b₀.toNat + 256 * (f b₁.toNat + 256 * (f b₂.toNat + 256 * (f b₃.toNat))) := by
    intro f
    rw [hLdef]
    rfl
  unfold wordBits
  dsimp only
  generalize UInt32.ofNat (ofLittleEndian [b₀, b₁, b₂, b₃]) = aux at haux ⊢
  -- pairs of bits
  have hodd : ((aux >>> (1 : UInt32)) &&& (0x55555555 : UInt32)).toNat = word (L.map fun d => d / 2 ^ 1 &&& 85) :=
    toNat_shiftRight_land hL haux (by decide) (by decide) (by rw [hlen]; decide)
  have hself : word L = word (L.map fun d => d) := by rw [List.map_id']
  have hle : ∀ d ∈ L, (d / 2 ^ 1 &&& 85) ≤ d := fun d _ => Nat.and_le_left.trans (Nat.div_le_self _ _)
  have hpairs : (aux - ((aux >>> (1 : UInt32)) &&& (0x55555555 : UInt32))).toNat = word (L.map pairSums) := by
    rw [UInt32.toNat_sub_of_le, hodd, haux, hself]
    · exact Lanes.word_map_sub hle
    · rw [UInt32.le_iff_toNat_le, hodd, haux, hself]
      exact Lanes.word_map_le hle
  generalize aux - ((aux >>> (1 : UInt32)) &&& (0x55555555 : UInt32)) = aux at hpairs ⊢
  have hpairBytes : IsBytes (L.map pairSums) := List.forall_mem_map.2 fun d hd => (byte_stages (hL d hd)).1
  -- halves of bytes
  have hlow : (aux &&& (0x33333333 : UInt32)).toNat = word ((L.map pairSums).map fun d => d / 2 ^ 0 &&& 51) := by
    have hmask : (0x33333333 : UInt32).toNat = word (List.replicate (L.map pairSums).length 51) := by
      rw [length_map, hlen]
      decide
    have hunshifted : word (L.map pairSums) = word (L.map pairSums) / 2 ^ 0 := (Nat.div_one _).symm
    rw [UInt32.toNat_and, hpairs, hmask, hunshifted, Lanes.shiftRight_land_word (by decide) (by decide) hpairBytes]
  have hhigh : ((aux >>> (2 : UInt32)) &&& (0x33333333 : UInt32)).toNat = word ((L.map pairSums).map fun d => d / 2 ^ 2 &&& 51) :=
    toNat_shiftRight_land hpairBytes hpairs (by decide) (by decide) (by rw [length_map, hlen]; decide)
  have hstage := fun d hd => byte_stages (hL d hd)
  have hbytes : ∀ b : UInt8, byteSum b.toNat ≤ 8 ∧ byteSum b.toNat = ones b := by
    intro b
    obtain ⟨-, -, hle, heq, -⟩ := byte_stages b.toNat_lt
    rw [UInt8.ofNat_toNat] at heq
    exact ⟨hle, heq⟩
  have hhalf : ∀ b : UInt8, halfSums b.toNat ≤ 68 := by
    intro b
    have := (byte_stages b.toNat_lt).2.1
    omega
  have hhalves : ((aux &&& (0x33333333 : UInt32)) + ((aux >>> (2 : UInt32)) &&& (0x33333333 : UInt32))).toNat = word (L.map halfSums) := by
    rw [UInt32.toNat_add, hlow, hhigh, Lanes.word_map_add, List.map_map]
    refine Nat.mod_eq_of_lt (lt_of_eq_of_lt (hsum halfSums) ?_)
    have h₀ := hhalf b₀
    have h₁ := hhalf b₁
    have h₂ := hhalf b₂
    have h₃ := hhalf b₃
    omega
  generalize (aux &&& (0x33333333 : UInt32)) + ((aux >>> (2 : UInt32)) &&& (0x33333333 : UInt32)) = aux at hhalves ⊢
  -- whole bytes
  have hwhole : ((aux + (aux >>> (4 : UInt32))) &&& (0x0F0F0F0F : UInt32)).toNat = word (L.map byteSum) := by
    have hmask : (0x0F0F0F0F : UInt32).toNat = word (List.replicate (L.map halfSums).length 15) := by
      rw [length_map, hlen]
      decide
    have hsmall : word (L.map halfSums) + word (L.map halfSums) / 16 < 2 ^ 32 := by
      rw [hsum]
      have h₀ := hhalf b₀
      have h₁ := hhalf b₁
      have h₂ := hhalf b₂
      have h₃ := hhalf b₃
      omega
    rw [UInt32.toNat_and, UInt32.toNat_add, UInt32.toNat_shiftRight, hhalves, hmask, Nat.shiftRight_eq_div_pow]
    change (word (L.map halfSums) + word (L.map halfSums) / 16) % 2 ^ 32 &&& _ = _
    rw [Nat.mod_eq_of_lt hsmall, Lanes.fold_word, List.map_map]
    · rfl
    · exact List.forall_mem_map.2 fun d hd => (hstage d hd).2.1
  generalize (aux + (aux >>> (4 : UInt32))) &&& (0x0F0F0F0F : UInt32) = aux at hwhole ⊢
  -- their sum, in the highest byte
  rw [UInt32.toNat_shiftRight, UInt32.toNat_mul, hwhole, hsum, Nat.shiftRight_eq_div_pow, ← (hbytes b₀).2, ← (hbytes b₁).2, ← (hbytes b₂).2, ← (hbytes b₃).2]
  exact highest_byte (hbytes b₀).1 (hbytes b₁).1 (hbytes b₂).1 (hbytes b₃).1

theorem ones_le (b : UInt8) : ones b ≤ 8 := countP_le_length

theorem onesIn_split (s : List UInt8) (p a b : ℕ) : onesIn ((s.drop p).take (a + b)) = onesIn ((s.drop p).take a) + onesIn ((s.drop (p + a)).take b) := by
  rw [take_add, onesIn, map_append, sum_append, drop_drop]
  rfl

/-- **A word in memory.** -/
theorem loadUInt32_bits {s : List UInt8} {p : ℕ} (h : p + 4 ≤ s.length) :
    ∃ w, loadUInt32 s p = some w ∧ (wordBits w).toNat = onesIn ((s.drop p).take 4) ∧ onesIn ((s.drop p).take 4) ≤ 32 := by
  have hlen : ((s.drop p).take 4).length = 4 := by
    rw [length_take, length_drop]
    omega
  rw [loadUInt32, Memory.read, if_pos h]
  generalize (s.drop p).take 4 = t at hlen
  obtain ⟨b₀, b₁, b₂, b₃, rfl⟩ : ∃ b₀ b₁ b₂ b₃, t = [b₀, b₁, b₂, b₃] := length_eq_four.1 hlen
  have hones : onesIn [b₀, b₁, b₂, b₃] = ones b₀ + ones b₁ + ones b₂ + ones b₃ := by
    simp only [onesIn, map_cons, map_nil, sum_cons, sum_nil]
    omega
  refine ⟨_, rfl, by rw [wordBits_toNat, hones], ?_⟩
  have h₀ := ones_le b₀
  have h₁ := ones_le b₁
  have h₂ := ones_le b₂
  have h₃ := ones_le b₃
  omega

theorem popcountBytes_spec (s : List UInt8) : ∀ (count p bits : ℕ), p + count ≤ s.length →
    popcountBytes s count p bits = some (bits + onesIn ((s.drop p).take count)) := by
  intro count
  induction count with
  | zero =>
    intro p bits _
    rfl
  | succ count ih =>
    intro p bits h
    have hbyte : s[p]? = some (s.get ⟨p, by omega⟩) := List.getElem?_eq_getElem (by omega)
    have hdrop : (s.drop p).take (count + 1) = s.get ⟨p, by omega⟩ :: (s.drop (p + 1)).take count := by
      rw [drop_eq_getElem_cons (by omega), take_succ_cons]
      rfl
    rw [popcountBytes, hbyte, bind_some, ih (p + 1) _ (by omega), hdrop, bitsinbyte_eq, onesIn, onesIn, map_cons, sum_cons, Nat.add_assoc]

/-- **The words, and the bytes that are left.** -/
theorem popcountLoop_spec (s : List UInt8) (count p bits : ℕ) (h : p + count ≤ s.length) :
    popcountLoop s count p bits = some (bits + onesIn ((s.drop p).take count)) := by
  induction count, p, bits using popcountLoop.induct with
  | case1 count p bits hcount ih =>
    obtain ⟨w₁, hload₁, hw₁, hle₁⟩ := loadUInt32_bits (s := s) (p := p) (by omega)
    obtain ⟨w₂, hload₂, hw₂, hle₂⟩ := loadUInt32_bits (s := s) (p := p + 4) (by omega)
    obtain ⟨w₃, hload₃, hw₃, hle₃⟩ := loadUInt32_bits (s := s) (p := p + 8) (by omega)
    obtain ⟨w₄, hload₄, hw₄, hle₄⟩ := loadUInt32_bits (s := s) (p := p + 12) (by omega)
    have hadd : (wordBits w₁ + wordBits w₂ + wordBits w₃ + wordBits w₄).toNat =
        onesIn ((s.drop p).take 4) + onesIn ((s.drop (p + 4)).take 4) + onesIn ((s.drop (p + 8)).take 4) + onesIn ((s.drop (p + 12)).take 4) := by
      rw [UInt32.toNat_add, UInt32.toNat_add, UInt32.toNat_add, hw₁, hw₂, hw₃, hw₄]
      omega
    have hsplit₁ := onesIn_split s p 4 (count - 4)
    have hsplit₂ := onesIn_split s (p + 4) 4 (count - 8)
    have hsplit₃ := onesIn_split s (p + 8) 4 (count - 12)
    have hsplit₄ := onesIn_split s (p + 12) 4 (count - 16)
    rw [show 4 + (count - 4) = count by omega] at hsplit₁
    rw [show 4 + (count - 8) = count - 4 by omega] at hsplit₂
    rw [show 4 + (count - 12) = count - 8 by omega] at hsplit₃
    rw [show 4 + (count - 16) = count - 12 by omega] at hsplit₄
    rw [popcountLoop, if_pos hcount, hload₁, bind_some, hload₂, bind_some, hload₃, bind_some, hload₄, bind_some,
      ih w₁ w₂ w₃ w₄ (by omega), hadd, hsplit₁, hsplit₂, hsplit₃, hsplit₄]
    simp only [Nat.add_assoc]
  | case2 count p bits hcount => rw [popcountLoop, if_neg hcount, popcountBytes_spec s count p bits h]

theorem popcount_spec (s : List UInt8) (count : ℕ) (h : count ≤ s.length) : popcount s count = some (onesIn (s.take count)) := by
  rw [popcount, popcountLoop_spec s count 0 0 (by omega), Nat.zero_add, drop_zero]

end KVStores.Redis.Bitops
