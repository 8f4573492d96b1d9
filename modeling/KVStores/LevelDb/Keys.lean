import Mathlib.Data.Prod.Lex
import Mathlib.Algebra.Order.Ring.Nat
import Mathlib.Data.List.Basic

/-!
# Internal keys

The tables of a leveldb database hold entries under internal keys: a user key, and a number
made of the sequence number of the write and its type (`dbformat.h`). The user comparator is
the order of a type `K`; keys that it takes for equal are one element of `K`.
-/

namespace KVStores.LevelDb

inductive ValueType
  | deletion
  | value
deriving DecidableEq

def ValueType.toNat : ValueType → ℕ
  | deletion => 0
  | value => 1

def kValueTypeForSeek : ValueType := .value

def kMaxSequenceNumber : ℕ := 2 ^ 56 - 1

def packSequenceAndType (seq : ℕ) (t : ValueType) : ℕ := seq * 256 + t.toNat

/-- An internal key, as its user key and its last 8 bytes. -/
@[ext]
structure InternalKey (K : Type) where
  userKey : K
  tag : ℕ
deriving DecidableEq

namespace InternalKey

variable {K : Type}

/-- The key that `AppendInternalKey` writes. -/
def pack (userKey : K) (seq : ℕ) (t : ValueType) : InternalKey K := ⟨userKey, packSequenceAndType seq t⟩

def sequence (k : InternalKey K) : ℕ := k.tag / 256

/-- `ParseInternalKey`: the type, or nothing for a number that is no type. -/
def type? (k : InternalKey K) : Option ValueType :=
  if k.tag % 256 = 0 then some .deletion else if k.tag % 256 = 1 then some .value else none

@[simp] theorem pack_sequence (userKey : K) (seq : ℕ) (t : ValueType) : (pack userKey seq t).sequence = seq := by
  cases t <;> simp only [pack, sequence, packSequenceAndType, ValueType.toNat] <;> omega

@[simp] theorem pack_type? (userKey : K) (seq : ℕ) (t : ValueType) : (pack userKey seq t).type? = some t := by
  cases t
  · have h : packSequenceAndType seq .deletion % 256 = 0 := by simp only [packSequenceAndType, ValueType.toNat]; omega
    simp only [type?, pack, h, if_true]
  · have h : packSequenceAndType seq .value % 256 = 1 := by simp only [packSequenceAndType, ValueType.toNat]; omega
    simp [type?, pack, h]

variable {a b : InternalKey K}

theorem sequence_le (h : a.tag ≤ b.tag) : a.sequence ≤ b.sequence := Nat.div_le_div_right h

/-- Where the comparator puts a key: by its user key, then the highest number first. -/
def rank (k : InternalKey K) : K ×ₗ ℕᵒᵈ := toLex (k.userKey, OrderDual.toDual k.tag)

theorem rank_injective : Function.Injective (rank : InternalKey K → K ×ₗ ℕᵒᵈ) := by
  intro a b h
  obtain ⟨h1, h2⟩ := Prod.mk.inj h
  exact InternalKey.ext h1 (OrderDual.toDual.injective h2)

variable [LinearOrder K]

/-- `InternalKeyComparator`. -/
instance : LinearOrder (InternalKey K) := LinearOrder.lift' rank rank_injective

theorem lt_iff : a < b ↔ a.userKey < b.userKey ∨ a.userKey = b.userKey ∧ b.tag < a.tag :=
  Prod.Lex.toLex_lt_toLex

theorem le_iff : a ≤ b ↔ a.userKey < b.userKey ∨ a.userKey = b.userKey ∧ b.tag ≤ a.tag :=
  Prod.Lex.toLex_le_toLex

theorem userKey_le (h : a ≤ b) : a.userKey ≤ b.userKey := by
  rcases le_iff.1 h with h | h
  · exact le_of_lt h
  · exact le_of_eq h.1

theorem lt_of_userKey (h : a.userKey < b.userKey) : a < b := lt_iff.2 (Or.inl h)

theorem tag_le (h : a ≤ b) (hk : a.userKey = b.userKey) : b.tag ≤ a.tag := by
  rcases le_iff.1 h with h | h
  · exact absurd hk (ne_of_lt h)
  · exact h.2

theorem tag_lt_of_lt (h : a < b) (hk : a.userKey = b.userKey) : b.tag < a.tag := by
  rcases lt_iff.1 h with h | h
  · exact absurd hk (ne_of_lt h)
  · exact h.2

end InternalKey

structure Entry (K V : Type) where
  key : InternalKey K
  value : V
deriving DecidableEq

/-- `LookupKey`: where the entries of a user key begin that a snapshot may see. -/
def lookupKey {K : Type} (userKey : K) (seq : ℕ) : InternalKey K := .pack userKey seq kValueTypeForSeek

theorem lookupKey_le_iff {K : Type} [LinearOrder K] {userKey : K} {seq : ℕ} {k : InternalKey K} (ht : k.type? ≠ none) :
    lookupKey userKey seq ≤ k ↔ userKey < k.userKey ∨ userKey = k.userKey ∧ k.sequence ≤ seq := by
  have htag : k.tag % 256 ≤ 1 := by
    unfold InternalKey.type? at ht
    by_cases h0 : k.tag % 256 = 0
    · omega
    · by_cases h1 : k.tag % 256 = 1
      · omega
      · rw [if_neg h0, if_neg h1] at ht
        exact absurd rfl ht
  rw [InternalKey.le_iff]
  unfold lookupKey InternalKey.pack packSequenceAndType kValueTypeForSeek ValueType.toNat InternalKey.sequence
  dsimp only
  constructor
  · rintro (h | ⟨h, hle⟩)
    · exact Or.inl h
    · exact Or.inr ⟨h, by omega⟩
  · rintro (h | ⟨h, hle⟩)
    · exact Or.inl h
    · exact Or.inr ⟨h, by omega⟩

end KVStores.LevelDb
