import Mathlib.Data.List.Basic
import Mathlib.Tactic.Ring
import Mathlib.Data.Nat.ModEq

/-!
# Bytes in a file
-/

namespace KVStores

open List

/-- `n` in `k` bytes, the highest byte first. -/
@[grind =] def bigEndian : ℕ → ℕ → List UInt8
  | 0, _ => []
  | k + 1, n => UInt8.ofNat (n / 256 ^ k) :: bigEndian k n

def ofBigEndian (bs : List UInt8) : ℕ := bs.foldl (fun n b => n * 256 + b.toNat) 0

@[simp] theorem bigEndian_length (k n : ℕ) : (bigEndian k n).length = k := by
  induction k with
  | zero => rfl
  | succ k ih => rw [bigEndian, length_cons, ih]

theorem foldl_bigEndian (k n a : ℕ) : (bigEndian k n).foldl (fun n b => n * 256 + b.toNat) a = a * 256 ^ k + n % 256 ^ k := by
  induction k generalizing a with
  | zero => simp [bigEndian, Nat.mod_one]
  | succ k ih =>
    have hbyte : (UInt8.ofNat (n / 256 ^ k)).toNat = n / 256 ^ k % 256 := by simp
    have hsplit : n % 256 ^ (k + 1) = 256 ^ k * (n / 256 ^ k % 256) + n % 256 ^ k := by
      rw [pow_succ, Nat.mod_mul]; ring
    rw [bigEndian, foldl_cons, ih, hbyte, hsplit, pow_succ]
    ring

/-- **Reading back** what was written, up to what fits. -/
theorem ofBigEndian_bigEndian (k n : ℕ) : ofBigEndian (bigEndian k n) = n % 256 ^ k := by
  rw [ofBigEndian, foldl_bigEndian, zero_mul, zero_add]

theorem ofBigEndian_bigEndian_of_lt {k n : ℕ} (h : n < 256 ^ k) : ofBigEndian (bigEndian k n) = n := by
  rw [ofBigEndian_bigEndian, Nat.mod_eq_of_lt h]

theorem foldl_byte_lt (bs : List UInt8) : ∀ a, bs.foldl (fun n b => n * 256 + b.toNat) a < (a + 1) * 256 ^ bs.length := by
  induction bs with
  | nil => simp
  | cons b bs ih =>
    intro a
    refine (ih _).trans_le ?_
    rw [length_cons, pow_succ', ← mul_assoc]
    exact Nat.mul_le_mul_right _ (by have := b.toNat_lt; dsimp only; omega)

theorem ofBigEndian_lt (bs : List UInt8) : ofBigEndian bs < 256 ^ bs.length := by
  simpa [ofBigEndian] using foldl_byte_lt bs 0

structure ByteFile where
  byte : ℕ → UInt8
  size : ℕ

namespace ByteFile

/-- `n` bytes from `pos` on, or as many as there are. -/
def read (f : ByteFile) (pos n : ℕ) : List UInt8 :=
  (List.range (min n (f.size - pos))).map fun i => f.byte (pos + i)

/-- Puts bytes at `pos`. A gap behind the old end is filled with zeros. -/
def write (f : ByteFile) (pos : ℕ) (bs : List UInt8) : ByteFile where
  byte p :=
    if pos ≤ p ∧ p < pos + bs.length then bs.getD (p - pos) 0 else if f.size ≤ p then 0 else f.byte p
  size := if bs = [] then f.size else max f.size (pos + bs.length)

variable {f : ByteFile} {pos n m : ℕ} {bs : List UInt8}

theorem read_length : (f.read pos n).length = min n (f.size - pos) := by simp [read]

theorem read_length_of_le (h : pos + n ≤ f.size) : (f.read pos n).length = n := by
  rw [read_length]; omega

theorem size_write (h : pos + bs.length ≤ f.size) : (f.write pos bs).size = f.size := by
  unfold write
  split
  · rfl
  · exact max_eq_left h

theorem size_write_end (hbs : bs ≠ []) (h : f.size ≤ pos + bs.length) : (f.write pos bs).size = pos + bs.length := by
  unfold write
  rw [if_neg hbs]
  exact max_eq_right h

theorem size_le_write : f.size ≤ (f.write pos bs).size := by
  unfold write
  split
  · exact le_rfl
  · exact le_max_left _ _

theorem le_size_write (hbs : bs ≠ []) : pos + bs.length ≤ (f.write pos bs).size := by
  unfold write
  rw [if_neg hbs]
  exact le_max_right _ _

/-- **What has been written is read.** -/
theorem read_write_same : (f.write pos bs).read pos bs.length = bs := by
  by_cases hbs : bs = []
  · subst hbs; rfl
  · have hn : min bs.length ((f.write pos bs).size - pos) = bs.length := by
      have := @le_size_write f pos _ hbs
      omega
    refine ext_getElem (by rw [read_length, hn]) fun i h1 h2 => ?_
    simp only [read, getElem_map, getElem_range, write]
    rw [if_pos ⟨by omega, by omega⟩, Nat.add_sub_cancel_left, getD_eq_getElem?_getD, List.getElem?_eq_getElem h2]
    rfl

theorem read_add (h : pos + n + m ≤ f.size) : f.read pos (n + m) = f.read pos n ++ f.read (pos + n) m := by
  have h1 : min (n + m) (f.size - pos) = n + m := by omega
  have h2 : min n (f.size - pos) = n := by omega
  have h3 : min m (f.size - (pos + n)) = m := by omega
  unfold read
  rw [h1, h2, h3, range_add, map_append, List.map_map]
  congr 1
  refine map_congr_left fun i _ => ?_
  simp [Nat.add_assoc]

theorem read_part (h : pos + n ≤ f.size) {a b : ℕ} (hab : a + b ≤ n) : f.read (pos + a) b = ((f.read pos n).drop a).take b := by
  obtain ⟨c, rfl⟩ := Nat.exists_eq_add_of_le hab
  rw [read_add (n := a + b) (m := c) (by omega), read_add (n := a) (m := b) (by omega), append_assoc,
    drop_left' (read_length_of_le (by omega)), take_left' (read_length_of_le (by omega))]

theorem read_congr {f g : ByteFile} (hf : pos + n ≤ f.size) (hg : pos + n ≤ g.size)
    (h : ∀ p, pos ≤ p → p < pos + n → g.byte p = f.byte p) : g.read pos n = f.read pos n := by
  unfold read
  rw [show min n (g.size - pos) = min n (f.size - pos) by omega]
  refine map_congr_left fun i hi => ?_
  have hi := mem_range.1 hi
  exact h _ (by omega) (by omega)

end ByteFile

end KVStores
