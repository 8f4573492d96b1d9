import Mathlib.Data.List.Lex
import Mathlib.Order.Lattice
import Mathlib.Data.List.TakeWhile

/-!
# NUL-terminated strings and `strcmp`
-/

namespace KVStores.Gdb

/-- A C string: its bytes without the terminating NUL. -/
@[ext] structure CStr where
  bytes : List UInt8
  noNul : (0 : UInt8) ∉ bytes
deriving DecidableEq

def CStr.strlen (s : CStr) : ℕ := s.bytes.length

/-- The C string a buffer holds: everything before its first zero byte. -/
def cstr (buffer : List UInt8) : CStr where
  bytes := buffer.takeWhile (· ≠ 0)
  noNul h := by simpa using List.mem_takeWhile_imp h

/-- `strcmp` on the bytes. -/
@[grind =] def strcmpBytes : List UInt8 → List UInt8 → ℤ
  | [], [] => 0
  | [], _ :: _ => -1
  | _ :: _, [] => 1
  | a :: as, b :: bs => if a < b then -1 else if b < a then 1 else strcmpBytes as bs

def strcmp (a b : CStr) : ℤ := strcmpBytes a.bytes b.bytes

/-- The bytes as numbers, where the lexicographic order lives. -/
def CStr.ord (s : CStr) : List ℕ := s.bytes.map UInt8.toNat

theorem CStr.ord_injective : Function.Injective CStr.ord := by
  intro a b h
  ext1
  exact (List.map_injective_iff.2 fun x y hxy => UInt8.toNat_inj.1 hxy) h

/-- C strings are ordered lexicographically by their bytes. -/
instance : LinearOrder CStr := LinearOrder.lift' CStr.ord CStr.ord_injective

theorem strcmpBytes_spec (a b : List UInt8) : (strcmpBytes a b < 0 ↔ a.map UInt8.toNat < b.map UInt8.toNat) ∧
      (strcmpBytes a b = 0 ↔ a = b) := by
  induction a generalizing b with
  | nil => cases b <;> simp [strcmpBytes]
  | cons x xs ih =>
    cases b with
    | nil => simp [strcmpBytes]
    | cons y ys =>
      simp only [strcmpBytes, List.map_cons, List.cons_lt_cons_iff, List.cons.injEq]
      rcases lt_trichotomy x.toNat y.toNat with h | h | h
      · have hlt : x < y := UInt8.lt_iff_toNat_lt.2 h
        have hne : x ≠ y := fun e => by rw [e] at h; omega
        simp [hlt, h, hne]
      · have he : x = y := UInt8.toNat_inj.1 h
        subst he
        simp [ih ys]
      · have hlt : y < x := UInt8.lt_iff_toNat_lt.2 h
        have hnl : ¬ x < y := fun e => by have := UInt8.lt_iff_toNat_lt.1 e; omega
        have hne : x ≠ y := fun e => by rw [e] at h; omega
        have h' : ¬ x.toNat < y.toNat := by omega
        have h'' : x.toNat ≠ y.toNat := by omega
        simp [hlt, hnl, hne, h', h'']

variable {a b : CStr}

theorem strcmp_neg : strcmp a b < 0 ↔ a < b := (strcmpBytes_spec a.bytes b.bytes).1

theorem strcmp_zero : strcmp a b = 0 ↔ a = b :=
  (strcmpBytes_spec a.bytes b.bytes).2.trans ⟨CStr.ext, fun h => by rw [h]⟩

theorem strcmp_pos : 0 < strcmp a b ↔ b < a := by
  rcases lt_trichotomy a b with h | h | h
  · have := strcmp_neg.2 h
    exact iff_of_false (by omega) h.not_gt
  · have := strcmp_zero.2 h
    exact iff_of_false (by omega) (by rw [h]; exact lt_irrefl _)
  · have h1 := mt strcmp_neg.1 h.not_gt
    have h2 := mt strcmp_zero.1 h.ne'
    exact iff_of_true (by omega) h

example : strcmp ⟨[98], by decide⟩ ⟨[97, 99], by decide⟩ = 1 := by decide

end KVStores.Gdb
