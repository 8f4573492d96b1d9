import KVStores.LevelDb.Keys
import KVStores.Lib.Coding
import Mathlib.Data.List.Lex

/-!
# Separators

The keys of an index block are shortened (`comparator.cc`, `dbformat.cc`).

* `findShortest_spec`: **a separator is an internal key that is not below the first one and below the second**, and a successor is
  not below its key.
-/

namespace KVStores.LevelDb

open List

/-- The order of `Slice::compare`: the bytes as numbers, and a proper prefix first. -/
def ord (s : Bytes) : List ℕ := s.map UInt8.toNat

/-- `BytewiseComparatorImpl::FindShortestSeparator`. -/
@[grind =] def bytewiseSeparator : Bytes → Bytes → Bytes
  | [], _ => []
  | start, [] => start
  | a :: start, b :: limit =>
    if a = b then a :: bytewiseSeparator start limit
    else if a < 0xff ∧ a.toNat + 1 < b.toNat then [a + 1]
    else a :: start

/-- `BytewiseComparatorImpl::FindShortSuccessor`. -/
@[grind =] def bytewiseSuccessor : Bytes → Bytes
  | [] => []
  | a :: key => if a ≠ 0xff then [a + 1] else a :: bytewiseSuccessor key

def extractUserKey (key : Bytes) : Bytes := key.take (key.length - 8)

def internalKey (key : Bytes) : InternalKey (List ℕ) := ⟨ord (extractUserKey key), ofLittleEndian (key.drop (key.length - 8))⟩

/-- An internal key: a user key with a sequence number and a type behind it. -/
def IsInternalKey (key : Bytes) : Prop := 8 ≤ key.length ∧ (internalKey key).type? ≠ none

/-- The number that is put behind a shortened user key. -/
def earliestTag : Bytes := littleEndian 8 (packSequenceAndType kMaxSequenceNumber kValueTypeForSeek)

/-- What both functions of `InternalKeyComparator` do with the user key `tmp` that the user comparator made. -/
def adopt (key tmp : Bytes) : Bytes :=
  if tmp.length < (extractUserKey key).length ∧ ord (extractUserKey key) < ord tmp then tmp ++ earliestTag else key

def findShortestSeparator (start limit : Bytes) : Bytes :=
  adopt start (bytewiseSeparator (extractUserKey start) (extractUserKey limit))

def findShortSuccessor (key : Bytes) : Bytes := adopt key (bytewiseSuccessor (extractUserKey key))

variable {a : UInt8} {key tmp : Bytes}

theorem ord_cons_lt {a b : UInt8} {s t : Bytes} : ord (a :: s) < ord (b :: t) ↔ a.toNat < b.toNat ∨ a.toNat = b.toNat ∧ ord s < ord t :=
  cons_lt_cons_iff

theorem toNat_succ (h : a < 0xff) : (a + 1).toNat = a.toNat + 1 := by
  have hlt : a.toNat < 255 := UInt8.lt_iff_toNat_lt.mp h
  exact Nat.mod_eq_of_lt (by change a.toNat + 1 < 256; omega)

/-- **The start is kept, or a key strictly between comes out.** -/
theorem bytewiseSeparator_spec (start limit : Bytes) : bytewiseSeparator start limit = start ∨
    ord start < ord (bytewiseSeparator start limit) ∧ ord (bytewiseSeparator start limit) < ord limit := by
  fun_induction bytewiseSeparator start limit with
  | case1 => exact Or.inl rfl
  | case2 => exact Or.inl rfl
  | case3 start b limit ih =>
    refine ih.imp (congrArg _) fun h => ?_
    rw [ord_cons_lt, ord_cons_lt]
    exact ⟨Or.inr ⟨rfl, h.1⟩, Or.inr ⟨rfl, h.2⟩⟩
  | case4 a start b limit hne hlt =>
    have hsucc := toNat_succ hlt.1
    rw [ord_cons_lt, ord_cons_lt]
    exact Or.inr ⟨Or.inl (by omega), Or.inl (by omega)⟩
  | case5 => exact Or.inl rfl

theorem internalKey_tagged (tmp : Bytes) : internalKey (tmp ++ earliestTag) = .pack (ord tmp) kMaxSequenceNumber kValueTypeForSeek := by
  have hlen : (tmp ++ earliestTag).length - 8 = tmp.length := by
    rw [length_append, earliestTag, littleEndian_length, Nat.add_sub_cancel]
  have htag : ofLittleEndian earliestTag = packSequenceAndType kMaxSequenceNumber kValueTypeForSeek :=
    ofLittleEndian_littleEndian_of_lt (by decide)
  rw [internalKey, extractUserKey, hlen, take_left, drop_left, htag]
  rfl

/-- **What is adopted is an internal key above.** -/
theorem adopt_spec (h : IsInternalKey key) (tmp : Bytes) : IsInternalKey (adopt key tmp) ∧
    (adopt key tmp = key ∨ ord (extractUserKey key) < ord tmp ∧ (internalKey (adopt key tmp)).userKey = ord tmp) := by
  unfold adopt
  split_ifs with hshort
  · rw [IsInternalKey, internalKey_tagged, InternalKey.pack_type?, length_append, earliestTag, littleEndian_length]
    exact ⟨⟨Nat.le_add_left 8 _, Option.some_ne_none _⟩, Or.inr ⟨hshort.2, rfl⟩⟩
  · exact ⟨h, Or.inl rfl⟩

theorem findShortest_spec : (∀ start limit, IsInternalKey start → IsInternalKey limit → internalKey start < internalKey limit →
      IsInternalKey (findShortestSeparator start limit) ∧ internalKey start ≤ internalKey (findShortestSeparator start limit) ∧
        internalKey (findShortestSeparator start limit) < internalKey limit) ∧
    ∀ key, IsInternalKey key → IsInternalKey (findShortSuccessor key) ∧ internalKey key ≤ internalKey (findShortSuccessor key) := by
  -- what is adopted has a larger user key
  have habove : ∀ {key tmp}, ord (extractUserKey key) < ord tmp → (internalKey (adopt key tmp)).userKey = ord tmp →
      internalKey key < internalKey (adopt key tmp) := fun hlt huser => InternalKey.lt_of_userKey (huser.symm ▸ hlt)
  refine ⟨fun start limit hs hl hlt => ?_, fun key h => ?_⟩
  · obtain ⟨hkey, hadopt⟩ := adopt_spec hs (bytewiseSeparator (extractUserKey start) (extractUserKey limit))
    refine ⟨hkey, ?_⟩
    rw [findShortestSeparator]
    rcases hadopt with heq | ⟨hgrown, huser⟩
    · rw [heq]
      exact ⟨le_rfl, hlt⟩
    · refine ⟨(habove hgrown huser).le, InternalKey.lt_of_userKey ?_⟩
      rw [huser]
      rcases bytewiseSeparator_spec (extractUserKey start) (extractUserKey limit) with hsame | hbetween
      · rw [hsame] at hgrown
        exact absurd hgrown (lt_irrefl _)
      · exact hbetween.2
  · obtain ⟨hkey, hadopt⟩ := adopt_spec h (bytewiseSuccessor (extractUserKey key))
    refine ⟨hkey, ?_⟩
    rw [findShortSuccessor]
    rcases hadopt with heq | ⟨hgrown, huser⟩
    · rw [heq]
    · exact (habove hgrown huser).le

/-- The user keys `ab` and `d`, between which `b` is shorter than the first one; and what comes behind `ab`. -/
theorem findShortest_short : findShortestSeparator ([97, 98] ++ earliestTag) ([100] ++ earliestTag) = [98] ++ earliestTag ∧
    internalKey (findShortestSeparator ([97, 98] ++ earliestTag) ([100] ++ earliestTag)) < internalKey ([100] ++ earliestTag) ∧
      internalKey ([97, 98] ++ earliestTag) ≤ internalKey (findShortSuccessor ([97, 98] ++ earliestTag)) :=
  have hkey : IsInternalKey ([97, 98] ++ earliestTag) := ⟨by decide, by decide⟩
  have hlimit : IsInternalKey ([100] ++ earliestTag) := ⟨by decide, by decide⟩
  ⟨by decide, (findShortest_spec.1 _ _ hkey hlimit (InternalKey.lt_of_userKey (by decide))).2.2, (findShortest_spec.2 _ hkey).2⟩

end KVStores.LevelDb
