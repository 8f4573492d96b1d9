import KVStores.Lib.Coding
import Mathlib.Data.Nat.Digits.Defs
import Mathlib.Tactic.IntervalCases

/-!
# Bytes in a word

What an operation on a word does to its bytes: a word is a number in base 256, and the operation works on every digit by itself.
-/

namespace KVStores.Lanes

open List

open Nat (ofDigits)

abbrev word (L : List ℕ) : ℕ := ofDigits 256 L

def IsBytes (L : List ℕ) : Prop := ∀ d ∈ L, d < 256

variable {L M : List ℕ} {d m s : ℕ}

theorem word_cons (d : ℕ) (L : List ℕ) : word (d :: L) = d + 256 * word L := Nat.ofDigits_cons

theorem isBytes_cons : IsBytes (d :: L) ↔ d < 256 ∧ IsBytes L := forall_mem_cons

theorem word_map_toNat (s : Bytes) : word (s.map UInt8.toNat) = ofLittleEndian s := by
  induction s with
  | nil => rfl
  | cons b s ih => rw [map_cons, word_cons, ih, ofLittleEndian]

theorem isBytes_map_toNat (s : Bytes) : IsBytes (s.map UInt8.toNat) := by
  intro d hd
  obtain ⟨b, -, rfl⟩ := List.mem_map.1 hd
  exact b.toNat_lt

/-- An operation on words that works on every byte by itself. -/
structure Bytewise (f : ℕ → ℕ → ℕ) : Prop where
  zero : f 0 0 = 0
  mod : ∀ a b, f a b % 2 ^ 8 = f (a % 2 ^ 8) (b % 2 ^ 8)
  div : ∀ a b, f a b / 2 ^ 8 = f (a / 2 ^ 8) (b / 2 ^ 8)

theorem bytewise_land : Bytewise (· &&& ·) := ⟨rfl, fun _ _ => Nat.and_mod_two_pow, fun _ _ => Nat.and_div_two_pow⟩

theorem bytewise_lor : Bytewise (· ||| ·) := ⟨rfl, fun _ _ => Nat.or_mod_two_pow, fun _ _ => Nat.or_div_two_pow⟩

theorem bytewise_xor : Bytewise (· ^^^ ·) := ⟨rfl, fun _ _ => Nat.xor_mod_two_pow, fun _ _ => Nat.xor_div_two_pow⟩

theorem Bytewise.cons {f : ℕ → ℕ → ℕ} (hf : Bytewise f) {d' x x' : ℕ} (h : d < 256) (h' : d' < 256) :
    f (d + 256 * x) (d' + 256 * x') = f d d' + 256 * f x x' := by
  have hmod := hf.mod (d + 256 * x) (d' + 256 * x')
  have hdiv := hf.div (d + 256 * x) (d' + 256 * x')
  rw [show (d + 256 * x) % 2 ^ 8 = d by omega, show (d' + 256 * x') % 2 ^ 8 = d' by omega] at hmod
  rw [show (d + 256 * x) / 2 ^ 8 = x by omega, show (d' + 256 * x') / 2 ^ 8 = x' by omega] at hdiv
  omega

/-- **A bytewise operation on two words.** -/
theorem Bytewise.word {f : ℕ → ℕ → ℕ} (hf : Bytewise f) : ∀ {L M : List ℕ}, IsBytes L → IsBytes M → L.length = M.length →
    f (word L) (word M) = word (L.zipWith f M)
  | [], [], _, _, _ => hf.zero
  | d :: L, d' :: M, hL, hM, h => by
    obtain ⟨hd, hL⟩ := isBytes_cons.1 hL
    obtain ⟨hd', hM⟩ := isBytes_cons.1 hM
    rw [zipWith_cons_cons, word_cons, word_cons, word_cons, hf.cons hd hd', hf.word hL hM (Nat.succ.inj h)]

theorem complement_word : ∀ {L : List ℕ}, IsBytes L → 256 ^ L.length - 1 - word L = word (L.map (255 - ·))
  | [], _ => rfl
  | d :: L, hL => by
    obtain ⟨hd, hL⟩ := isBytes_cons.1 hL
    have hlt : word L < 256 ^ L.length := Nat.ofDigits_lt_base_pow_length (by norm_num) hL
    rw [map_cons, word_cons, word_cons, ← complement_word hL, length_cons, pow_succ]
    omega

/-- **A bytewise operation on two blocks of memory.** -/
theorem Bytewise.ofLittleEndian {f : ℕ → ℕ → ℕ} (hf : Bytewise f) {g : UInt8 → UInt8 → UInt8} (hg : ∀ a b, (g a b).toNat = f a.toNat b.toNat)
    {s t : Bytes} (h : s.length = t.length) : f (ofLittleEndian s) (ofLittleEndian t) = ofLittleEndian (s.zipWith g t) := by
  rw [← word_map_toNat, ← word_map_toNat, ← word_map_toNat, hf.word (isBytes_map_toNat s) (isBytes_map_toNat t) (by rwa [length_map, length_map]),
    zipWith_map, map_zipWith]
  simp only [hg]

theorem complement_ofLittleEndian (s : Bytes) : 256 ^ s.length - 1 - ofLittleEndian s = ofLittleEndian (s.map (~~~·)) := by
  have hword := complement_word (isBytes_map_toNat s)
  rw [length_map, List.map_map] at hword
  rw [← word_map_toNat, ← word_map_toNat, List.map_map, hword]
  exact congrArg Lanes.word (map_congr_left fun b _ => (UInt8.toNat_not b).symm)

theorem word_map_add (f g : ℕ → ℕ) (L : List ℕ) : word (L.map f) + word (L.map g) = word (L.map fun d => f d + g d) := by
  induction L with
  | nil => rfl
  | cons d L ih =>
    rw [map_cons, map_cons, map_cons, word_cons, word_cons, word_cons, ← ih]
    omega

theorem word_map_le {f g : ℕ → ℕ} (h : ∀ d ∈ L, g d ≤ f d) : word (L.map g) ≤ word (L.map f) := by
  induction L with
  | nil => exact Nat.le_refl _
  | cons d L ih =>
    obtain ⟨hd, hL⟩ := forall_mem_cons.1 h
    rw [map_cons, map_cons, word_cons, word_cons]
    have := ih hL
    omega

theorem word_map_sub {f g : ℕ → ℕ} (h : ∀ d ∈ L, g d ≤ f d) : word (L.map f) - word (L.map g) = word (L.map fun d => f d - g d) := by
  have hsum := word_map_add (fun d => f d - g d) g L
  have hsame : L.map (fun d => f d - g d + g d) = L.map f := map_congr_left fun d hd => Nat.sub_add_cancel (h d hd)
  rw [hsame] at hsum
  omega

theorem shiftRight_land_cons {x y : ℕ} (hs : s ≤ 8) (hm : m < 2 ^ (8 - s)) (h : d < 256) :
    (d + 256 * x) / 2 ^ s &&& (m + 256 * y) = (d / 2 ^ s &&& m) + 256 * (x / 2 ^ s &&& y) := by
  have hlow : (d + 256 * x) / 2 ^ s % 256 % 2 ^ (8 - s) = d / 2 ^ s % 2 ^ (8 - s) := by interval_cases s <;> omega
  have hhigh : (d + 256 * x) / 2 ^ s = (d + 256 * x) / 2 ^ s % 256 + 256 * (x / 2 ^ s) := by interval_cases s <;> omega
  have hmask : ∀ a, a &&& m = a % 2 ^ (8 - s) &&& m := by
    intro a
    have hle : a &&& m ≤ m := Nat.and_le_right
    rw [← Nat.mod_eq_of_lt (lt_of_le_of_lt hle hm), Nat.and_mod_two_pow, Nat.mod_eq_of_lt hm]
  have hbyte : m < 256 := lt_of_lt_of_le hm (Nat.pow_le_pow_right (by norm_num) (Nat.sub_le 8 s))
  rw [hhigh, bytewise_land.cons (Nat.mod_lt _ (by norm_num)) hbyte, hmask, hlow, ← hmask]

theorem shiftRight_land_word (hs : s ≤ 8) (hm : m < 2 ^ (8 - s)) : ∀ {L : List ℕ}, IsBytes L →
    word L / 2 ^ s &&& word (List.replicate L.length m) = word (L.map fun d => d / 2 ^ s &&& m)
  | [], _ => Nat.and_zero _
  | d :: L, hL => by
    obtain ⟨hd, hL⟩ := isBytes_cons.1 hL
    rw [length_cons, replicate_succ, map_cons, word_cons, word_cons, word_cons, shiftRight_land_cons hs hm hd, shiftRight_land_word hs hm hL]

theorem fold_word : ∀ {L : List ℕ}, (∀ d ∈ L, d / 16 ≤ 4 ∧ d % 16 ≤ 4) →
    word L + word L / 16 &&& word (List.replicate L.length 15) = word (L.map fun d => d + d / 16 &&& 15)
  | [], _ => Nat.and_zero _
  | d :: L, hL => by
    obtain ⟨hd, hL⟩ := forall_mem_cons.1 hL
    -- the lower half of the next byte comes in above both halves of this one
    have hnext : word L % 16 ≤ 4 := by
      cases L with
      | nil => exact Nat.zero_le _
      | cons d' L =>
        have hd' := (hL d' mem_cons_self).2
        rw [word_cons]
        omega
    have hsplit : d + 256 * word L + (d + 256 * word L) / 16 = (d + d / 16 + 16 * (word L % 16)) + 256 * (word L + word L / 16) := by omega
    have hfold : (d + d / 16 + 16 * (word L % 16)) &&& 15 = d + d / 16 &&& 15 := by
      rw [show 15 = 2 ^ 4 - 1 from rfl, Nat.and_two_pow_sub_one_eq_mod, Nat.and_two_pow_sub_one_eq_mod]
      omega
    rw [length_cons, replicate_succ, map_cons, word_cons, word_cons, word_cons, hsplit, bytewise_land.cons (by omega) (by norm_num), hfold,
      fold_word hL]

end KVStores.Lanes
