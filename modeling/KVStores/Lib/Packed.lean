import KVStores.Lib.Coding
import KVStores.Lib.Memory
import Mathlib.Tactic.Positivity
import Mathlib.Tactic.Zify

/-!
# Signed numbers in cells of a fixed width

An array of signed numbers in a block of bytes, each number in `w` bytes, the lowest first.
-/

namespace KVStores.Packed

open List

/-- The two's complement of a number in `w` bytes. -/
def signedBytes (w : ℕ) (v : ℤ) : Bytes := littleEndian w (v % 256 ^ w).toNat

/-- The number that `w` bytes stand for. -/
def ofSignedBytes (w : ℕ) (s : Bytes) : ℤ := (ofLittleEndian s : ℤ).bmod (256 ^ w)

/-- A number that `w` bytes hold. -/
def FitsWidth (w : ℕ) (v : ℤ) : Prop := -(256 ^ w : ℤ) ≤ 2 * v ∧ 2 * v < 256 ^ w

instance (w : ℕ) (v : ℤ) : Decidable (FitsWidth w v) := inferInstanceAs (Decidable (_ ∧ _))

@[simp] theorem length_signedBytes (w : ℕ) (v : ℤ) : (signedBytes w v).length = w := littleEndian_length _ _

/-- **Reading back** a number that fits. -/
theorem ofSignedBytes_signedBytes {w : ℕ} {v : ℤ} (h : FitsWidth w v) : ofSignedBytes w (signedBytes w v) = v := by
  have hpos : (0 : ℤ) < 256 ^ w := by positivity
  have hnonneg := Int.emod_nonneg v hpos.ne'
  have hlt := Int.emod_lt_of_pos v hpos
  have hnat : (v % 256 ^ w).toNat < 256 ^ w := by
    zify
    rwa [Int.toNat_of_nonneg hnonneg]
  rw [ofSignedBytes, signedBytes, ofLittleEndian_littleEndian_of_lt hnat, Int.toNat_of_nonneg hnonneg]
  have hcast : ((256 ^ w : ℕ) : ℤ) = 256 ^ w := by push_cast; rfl
  rw [← hcast, Int.emod_bmod, Int.bmod_eq_of_le_mul_two]
  · have := h.1
    omega
  · rw [hcast]
    have := h.2
    omega

theorem FitsWidth.mono {w w' : ℕ} {v : ℤ} (h : FitsWidth w v) (hw : w ≤ w') : FitsWidth w' v := by
  have hle : (256 : ℤ) ^ w ≤ 256 ^ w' := pow_le_pow_right₀ (by norm_num) hw
  exact ⟨by have := h.1; omega, by have := h.2; omega⟩

/-- An array of numbers, each in `w` bytes. -/
def packed (w : ℕ) (l : List ℤ) : Bytes := l.flatMap (signedBytes w)

@[simp] theorem packed_nil (w : ℕ) : packed w [] = [] := rfl

@[simp] theorem packed_cons (w : ℕ) (v : ℤ) (l : List ℤ) : packed w (v :: l) = signedBytes w v ++ packed w l := flatMap_cons

@[simp] theorem packed_append (w : ℕ) (l l' : List ℤ) : packed w (l ++ l') = packed w l ++ packed w l' := flatMap_append

@[simp] theorem length_packed (w : ℕ) (l : List ℤ) : (packed w l).length = l.length * w := by
  induction l with
  | nil => rw [packed_nil, length_nil, length_nil, Nat.zero_mul]
  | cons v l ih => rw [packed_cons, length_append, length_signedBytes, ih, length_cons, Nat.succ_mul, Nat.add_comm]

theorem read_cell {w n : ℕ} (l l' : List ℤ) (v : ℤ) (rest : Bytes) (hn : n = l.length) :
    Memory.read (packed w (l ++ v :: l') ++ rest) (n * w) w = some (signedBytes w v) := by
  rw [packed_append, packed_cons, append_assoc, append_assoc, ← append_assoc (packed w l)]
  exact Memory.read_at (by rw [length_packed, hn]) (length_signedBytes w v).symm

theorem write_cell {w n : ℕ} {l : List ℤ} {old : Bytes} (v : ℤ) (rest : Bytes) (hn : n = l.length) (hold : old.length = w) :
    Memory.write (packed w l ++ old ++ rest) (n * w) (signedBytes w v) = some (packed w (l ++ [v]) ++ rest) := by
  rw [Memory.write_at (by rw [length_packed, hn]) (by rw [length_signedBytes, hold]), packed_append, packed_cons, packed_nil, append_nil]

end KVStores.Packed
