import KVStores.Lib.Ranked
import KVStores.Qdbm.CabinDump
import Mathlib.Data.List.Lex
import Mathlib.Data.List.TakeWhile
import Mathlib.Data.Prod.Lex

/-!
# The orders of keys in a Villa database

`vllexcompare`, `vlintcompare` and `vlnumcompare` (`villa.c`), and the bisection of `vlrecsearch` with each of them.

* `orders_iff`: **each comparison is the order that it stands for** just if no two native integers are so far apart that their
  difference wraps, and no two numbers differ first in bytes of which one has the sign bit.
-/

namespace KVStores.VillaDb

open List Option

open Cabin (signedChar)

@[grind =] def firstDiff : Bytes → Bytes → Option (UInt8 × UInt8)
  | x :: a, y :: b => if x ≠ y then some (x, y) else firstDiff a b
  | _, _ => none

def vllexcompare (a b : Bytes) : ℤ :=
  match firstDiff a b with
  | some (x, y) => x.toNat - y.toNat
  | none => if a.length = b.length then 0 else a.length - b.length

def nativeInt (a : Bytes) : ℤ := if a.length = 4 then (ofLittleEndian a : ℤ).bmod (2 ^ 32) else -2 ^ 31

def vlintcompare (a b : Bytes) : ℤ := if a.length ≠ b.length then a.length - b.length else (nativeInt a - nativeInt b).bmod (2 ^ 32)

/-- `vlnumcompare`: a `char` has a sign. -/
def vlnumcompare (a b : Bytes) : ℤ :=
  if a.length ≠ b.length then a.length - b.length
  else
    match firstDiff a b with
    | some (x, y) => signedChar x - signedChar y
    | none => 0

/-- `while(right >= left && i < ln)` of `vlrecsearch`: the index, and whether the key there compares equal. `test` compares the
key with a record. -/
@[grind =] def recsearchLoop (test : ℕ → ℤ) (ln : ℕ) : ℕ → ℤ → ℤ → ℤ → ℤ × Bool
  | 0, _, _, i => (i, false)
  | fuel + 1, left, right, i =>
    if left ≤ right ∧ i < ln then
      if test i.toNat = 0 then (i, true)
      else if test i.toNat ≤ 0 then recsearchLoop test ln fuel left (i - 1) ((left + (i - 1)).tdiv 2)
      else recsearchLoop test ln fuel (i + 1) right ((i + 1 + right).tdiv 2)
    else (i, false)

/-- `vlrecsearch` over the keys of the records of a leaf. -/
def vlrecsearch (cmp : Bytes → Bytes → ℤ) (recs : List Bytes) (key : Bytes) : ℤ × Bool :=
  recsearchLoop (fun i => cmp key (recs.getD i [])) recs.length (recs.length + 2) 0 recs.length ((0 + recs.length : ℤ).tdiv 2)

variable {test : ℕ → ℤ} {ln p : ℕ} {cmp : Bytes → Bytes → ℤ} {K recs : List Bytes} {key a b : Bytes}

/-- The key is above the records before `p`, and below those behind it. -/
structure Turns (test : ℕ → ℤ) (ln p : ℕ) : Prop where
  below : ∀ j, j < p → 0 < test j
  at_le : p < ln → test p ≤ 0
  above : ∀ j, p < j → j < ln → test j < 0
  le_ln : p ≤ ln

/-- What the search ends with: the place of the key, or the one before it, and whether the key is there. -/
structure Stops (test : ℕ → ℤ) (ln p : ℕ) (r : ℤ × Bool) : Prop where
  near : r.1 = p ∨ r.1 = p - 1
  found : r.2 = true → r.1 = p ∧ p < ln ∧ test p = 0
  missed : r.2 = false → p < ln → test p < 0

theorem recsearchLoop_stops (h : Turns test ln p) : ∀ {fuel : ℕ} {left right : ℤ}, 0 ≤ left → left ≤ p → (p : ℤ) ≤ right + 1 → right ≤ ln →
    (right < p → p < ln → test p < 0) → right + 1 - left < fuel → Stops test ln p (recsearchLoop test ln fuel left right ((left + right).tdiv 2)) := by
  intro fuel
  induction fuel with
  | zero =>
    intro left right _ h2 h3 _ _ h6
    omega
  | succ fuel ih =>
    intro left right h1 h2 h3 h4 h5 h6
    have hmid : (left + right).tdiv 2 = if 0 ≤ left + right then (left + right) / 2 else 0 := by
      split
      · exact Int.tdiv_eq_ediv_of_nonneg ‹_›
      · rw [show left + right = -1 by omega]
        rfl
    unfold recsearchLoop
    rw [hmid]
    by_cases hgo : left ≤ right ∧ (if 0 ≤ left + right then (left + right) / 2 else 0) < (ln : ℤ)
    · rw [if_pos hgo]
      obtain ⟨m, hm⟩ := Int.eq_ofNat_of_zero_le (show 0 ≤ (left + right) / 2 by omega)
      rw [if_pos (show 0 ≤ left + right by omega), hm] at hgo ⊢
      rw [Int.toNat_natCast]
      by_cases h0 : test m = 0
      · rw [if_pos h0]
        -- a record that compares equal is neither before nor behind the place
        have hmp : m = p := by
          rcases Nat.lt_trichotomy m p with hlt | heq | hlt
          · have := h.below m hlt
            omega
          · exact heq
          · have := h.above m hlt (by omega)
            omega
        subst hmp
        exact ⟨Or.inl rfl, fun _ => ⟨rfl, by omega, h0⟩, fun hc => Bool.noConfusion hc⟩
      · rw [if_neg h0]
        by_cases hneg : test m ≤ 0
        · rw [if_pos hneg]
          have hpm : p ≤ m := by
            by_contra hc
            have := h.below m (by omega)
            omega
          refine ih h1 h2 (by omega) (by omega) (fun hlt hp => ?_) (by omega)
          obtain rfl : p = m := by omega
          omega
        · rw [if_neg hneg]
          have hpm : m < p := by
            by_contra hc
            rcases Nat.lt_or_eq_of_le (not_lt.1 hc) with hlt | rfl
            · have := h.above m hlt (by omega)
              omega
            · have := h.at_le (by omega)
              omega
          exact ih (by omega) (by omega) h3 h4 h5 (by omega)
    · rw [if_neg hgo]
      have hend : left = right + 1 ∨ (left = ln ∧ right = ln) := by
        by_cases hlr : left ≤ right
        · right
          have := not_and.1 hgo hlr
          split at this <;> omega
        · left
          omega
      refine ⟨?_, fun hc => Bool.noConfusion hc, fun _ hp => h5 ?_ hp⟩
      · rcases hend with he | ⟨he, he'⟩
        · split <;> omega
        · omega
      · rcases hend with he | ⟨he, he'⟩ <;> omega

def Ascending (cmp : Bytes → Bytes → ℤ) (recs : List Bytes) : Prop := recs.Pairwise fun x y => cmp x y < 0

/-- **The search is sound** for a list and a key: it finds the record with an equivalent key, if there is one, and else ends in
front of the first record above it or one before. -/
def SearchSound (cmp : Bytes → Bytes → ℤ) (recs : List Bytes) (key : Bytes) : Prop :=
  ((vlrecsearch cmp recs key).2 = true ↔ ∃ x ∈ recs, cmp key x = 0) ∧
    ((vlrecsearch cmp recs key).2 = true → ∃ x, recs[(vlrecsearch cmp recs key).1.toNat]? = some x ∧ cmp key x = 0) ∧
    ∃ la lb, recs = la ++ lb ∧ (∀ x ∈ la, cmp x key < 0) ∧ (∀ x ∈ lb, ¬cmp x key < 0) ∧
      ((vlrecsearch cmp recs key).1 = la.length ∨ (vlrecsearch cmp recs key).1 = la.length - 1)

theorem getD_of_lt {j : ℕ} (h : j < recs.length) : recs.getD j [] = recs[j] := by
  rw [getD_eq_getElem?_getD, List.getElem?_eq_getElem h, getD_some]

theorem recsearch_sound (hcmp : TotalOn cmp K) (hrecs : ∀ x ∈ recs, x ∈ K) (hasc : Ascending cmp recs) (hkey : key ∈ K) : SearchSound cmp recs key := by
  obtain ⟨la, hla⟩ : ∃ la, recs.takeWhile (fun x => decide (cmp x key < 0)) = la := ⟨_, rfl⟩
  obtain ⟨lb, hlb⟩ : ∃ lb, recs.dropWhile (fun x => decide (cmp x key < 0)) = lb := ⟨_, rfl⟩
  have hsplit : recs = la ++ lb := by rw [← hla, ← hlb, takeWhile_append_dropWhile]
  have hbefore : ∀ x ∈ la, cmp x key < 0 := by
    intro x hx
    rw [← hla] at hx
    simpa using mem_takeWhile_imp hx
  have hmemb : ∀ x ∈ lb, x ∈ K := fun x hx => hrecs x (hsplit ▸ mem_append_right la hx)
  -- what is behind the first record that is not below the key is above it
  have hbehind : ∀ x lb', lb = x :: lb' → ¬cmp x key < 0 ∧ ∀ y ∈ lb', cmp key y < 0 := by
    intro x lb' hx
    have hnot : ¬cmp x key < 0 := by
      have := List.head?_dropWhile_not (fun x => decide (cmp x key < 0)) recs
      rw [hlb, hx] at this
      exact of_decide_eq_false this
    refine ⟨hnot, fun y hy => ?_⟩
    have hxK := hmemb x (hx ▸ mem_cons_self)
    have hyK := hmemb y (hx ▸ mem_cons_of_mem x hy)
    have hxy : cmp x y < 0 := by
      have hpair := (pairwise_append.1 (hsplit ▸ hasc)).2.1
      rw [hx] at hpair
      exact (pairwise_cons.1 hpair).1 y hy
    have hle : cmp key x ≤ 0 := by
      rw [hcmp.flip x hxK key hkey] at hnot
      omega
    by_contra hc
    rw [hcmp.flip key hkey y hyK] at hc
    have := hcmp.trans y hyK key hkey x hxK (by omega) hle
    rw [hcmp.flip x hxK y hyK] at hxy
    omega
  have hafter : ∀ x ∈ lb, ¬cmp x key < 0 := by
    cases lb with
    | nil => exact fun x hx => absurd hx not_mem_nil
    | cons z lb' =>
      obtain ⟨h1, h2⟩ := hbehind z lb' rfl
      intro x hx
      rcases mem_cons.1 hx with rfl | hx'
      · exact h1
      · have := h2 x hx'
        rw [hcmp.flip key hkey x (hmemb x hx)] at this
        omega
  have hturns : Turns (fun i => cmp key (recs.getD i [])) recs.length la.length := by
    have hlen : recs.length = la.length + lb.length := by rw [hsplit, length_append]
    refine ⟨fun j hj => ?_, fun hp => ?_, fun j hj hjn => ?_, by omega⟩
    · have hmem : recs.getD j [] ∈ la := by
        rw [getD_of_lt (by omega)]
        simp only [hsplit]
        rw [getElem_append_left hj]
        exact getElem_mem hj
      have hmemK : recs.getD j [] ∈ K := by
        rw [getD_of_lt (by omega)]
        exact hrecs _ (getElem_mem _)
      exact (hcmp.flip _ hmemK key hkey).1 (hbefore _ hmem)
    · cases lb with
      | nil => exact absurd hp (by rw [hlen, length_nil]; omega)
      | cons z lb' =>
        have hz : recs.getD la.length [] = z := by
          rw [getD_eq_getElem?_getD, hsplit, List.getElem?_append_right le_rfl, Nat.sub_self]
          rfl
        have hnot := (hbehind z lb' rfl).1
        rw [hcmp.flip z (hmemb z mem_cons_self) key hkey] at hnot
        rw [hz]
        omega
    · cases lb with
      | nil =>
        rw [hlen, length_nil] at hjn
        omega
      | cons z lb' =>
        refine (hbehind z lb' rfl).2 _ ?_
        rw [hlen, length_cons] at hjn
        rw [getD_eq_getElem?_getD, hsplit, List.getElem?_append_right hj.le]
        obtain ⟨i, hi⟩ : ∃ i, j - la.length = i + 1 := ⟨j - la.length - 1, by omega⟩
        rw [hi, List.getElem?_cons_succ, List.getElem?_eq_getElem (by omega), getD_some]
        exact getElem_mem _
  have hstops := @recsearchLoop_stops _ _ _ hturns (recs.length + 2) 0 recs.length le_rfl (Int.natCast_nonneg _)
    (by have := hturns.le_ln; omega) le_rfl (fun h1 h2 => by omega) (by omega)
  obtain ⟨hnear, hfound, hmissed⟩ := hstops
  have hat : (vlrecsearch cmp recs key).2 = true → ∃ x, recs[(vlrecsearch cmp recs key).1.toNat]? = some x ∧ cmp key x = 0 := by
    intro h
    obtain ⟨h1, h2, h3⟩ := hfound h
    refine ⟨recs[la.length], ?_, ?_⟩
    · unfold vlrecsearch
      rw [h1, Int.toNat_natCast, List.getElem?_eq_getElem h2]
    · rwa [getD_of_lt h2] at h3
  refine ⟨⟨fun h => ?_, fun ⟨x, hx, hzero⟩ => ?_⟩, hat, la, lb, hsplit, hbefore, hafter, hnear⟩
  · obtain ⟨x, hx, hzero⟩ := hat h
    exact ⟨x, mem_of_getElem? hx, hzero⟩
  · -- an equivalent key is the first one that is not below
    by_contra hnot
    have hmiss := hmissed (Bool.eq_false_iff.2 hnot)
    have hxK := hrecs x hx
    rw [hsplit] at hx
    rcases mem_append.1 hx with hxa | hxb
    · have := (hcmp.flip x hxK key hkey).1 (hbefore x hxa)
      omega
    · cases lb with
      | nil => exact not_mem_nil hxb
      | cons z lb' =>
        rcases mem_cons.1 hxb with rfl | hxb'
        · have hz : recs.getD la.length [] = x := by
            rw [getD_eq_getElem?_getD, hsplit, List.getElem?_append_right le_rfl, Nat.sub_self]
            rfl
          have := hmiss (by rw [hsplit, length_append, length_cons]; omega)
          rw [hz] at this
          omega
        · have := (hbehind z lb' rfl).2 x hxb'
          omega

variable {x y : UInt8}

theorem totalOn_of_lt {β : Type} [LinearOrder β] (f : Bytes → β)
    (h : ∀ a ∈ K, ∀ b ∈ K, (cmp a b < 0 ↔ f a < f b) ∧ (cmp a b = 0 ↔ f a = f b)) : TotalOn cmp K := by
  have hle : ∀ a ∈ K, ∀ b ∈ K, cmp a b ≤ 0 ↔ f a ≤ f b := by
    intro a ha b hb
    obtain ⟨hlt, heq⟩ := h a ha b hb
    rw [le_iff_lt_or_eq, le_iff_lt_or_eq, hlt, heq]
  refine ⟨fun a ha b hb => ?_, fun a ha b hb c hc hab hbc => ?_⟩
  · rw [(h a ha b hb).1, ← not_le, ← not_le, hle b hb a ha]
  · rw [hle a ha b hb] at hab
    rw [hle b hb c hc] at hbc
    rw [hle a ha c hc]
    exact hab.trans hbc

def unsigned (a : Bytes) : List ℕ := a.map UInt8.toNat

theorem vllexcompare_cons (x : UInt8) (a b : Bytes) : vllexcompare (x :: a) (x :: b) = vllexcompare a b := by
  have hdiff : firstDiff (x :: a) (x :: b) = firstDiff a b := if_neg (not_not.2 rfl)
  unfold vllexcompare
  rw [hdiff, length_cons, length_cons]
  cases firstDiff a b with
  | some d => rfl
  | none =>
    dsimp only
    by_cases hlen : a.length = b.length
    · rw [if_pos hlen, if_pos (by omega)]
    · omega

/-- **`vllexcompare` is the lexicographic order** of unsigned bytes. -/
theorem vllexcompare_spec : ∀ a b : Bytes, (vllexcompare a b < 0 ↔ unsigned a < unsigned b) ∧ (vllexcompare a b = 0 ↔ unsigned a = unsigned b) := by
  intro a
  induction a with
  | nil =>
    intro b
    cases b with
    | nil => exact ⟨iff_of_false (lt_irrefl 0) (lt_irrefl _), iff_of_true rfl rfl⟩
    | cons y b =>
      have hval : vllexcompare [] (y :: b) = -(b.length + 1 : ℕ) := by
        change (if 0 = b.length + 1 then (0 : ℤ) else (0 : ℕ) - (b.length + 1 : ℕ)) = _
        omega
      exact ⟨iff_of_true (by omega) (nil_lt_cons _ _), iff_of_false (by omega) (cons_ne_nil _ _).symm⟩
  | cons x a ih =>
    intro b
    cases b with
    | nil =>
      have hval : vllexcompare (x :: a) [] = (a.length + 1 : ℕ) := by
        unfold vllexcompare
        change (if a.length + 1 = 0 then (0 : ℤ) else (a.length + 1 : ℕ) - (0 : ℕ)) = _
        rw [if_neg (by omega)]
        omega
      rw [hval]
      exact ⟨iff_of_false (by omega) (not_lt_nil _), iff_of_false (by omega) (cons_ne_nil _ _)⟩
    | cons y b =>
      have hcons : ∀ (z : UInt8) (c : Bytes), unsigned (z :: c) = z.toNat :: unsigned c := fun _ _ => rfl
      by_cases hxy : x = y
      · subst hxy
        rw [vllexcompare_cons, hcons, hcons, cons_lt_cons_iff, cons_inj_right]
        obtain ⟨h1, h2⟩ := ih b
        refine ⟨h1.trans ⟨fun h => Or.inr ⟨rfl, h⟩, fun h => ?_⟩, h2⟩
        rcases h with h | ⟨-, h⟩
        · exact absurd h (lt_irrefl _)
        · exact h
      · have hne : x.toNat ≠ y.toNat := fun h => hxy (UInt8.toNat_inj.1 h)
        have hval : vllexcompare (x :: a) (y :: b) = (x.toNat : ℤ) - y.toNat := by
          have hdiff : firstDiff (x :: a) (y :: b) = some (x, y) := if_pos hxy
          unfold vllexcompare
          rw [hdiff]
        rw [hval, hcons, hcons, cons_lt_cons_iff]
        refine ⟨⟨fun h => Or.inl (by omega), fun h => ?_⟩, iff_of_false (by omega) fun h => hne (List.cons.inj h).1⟩
        rcases h with h | ⟨h, -⟩
        · omega
        · exact absurd h hne

/-- A key as a number, its first byte the highest. -/
@[grind =] def bigEndian : Bytes → ℕ
  | [] => 0
  | x :: a => x.toNat * 256 ^ a.length + bigEndian a

theorem bigEndian_lt (a : Bytes) : bigEndian a < 256 ^ a.length := by
  induction a with
  | nil => exact Nat.one_pos
  | cons x a ih =>
    have hx := x.toNat_lt
    have hmul : (x.toNat + 1) * 256 ^ a.length ≤ 256 * 256 ^ a.length := Nat.mul_le_mul_right _ (by omega)
    rw [Nat.add_mul, Nat.one_mul] at hmul
    rw [bigEndian, length_cons, Nat.pow_succ, Nat.mul_comm _ 256]
    omega

theorem bigEndian_cons_lt {a b : Bytes} (hlen : a.length = b.length) (h : x.toNat < y.toNat) : bigEndian (x :: a) < bigEndian (y :: b) := by
  have ha := bigEndian_lt a
  have hmul : (x.toNat + 1) * 256 ^ b.length ≤ y.toNat * 256 ^ b.length := Nat.mul_le_mul_right _ h
  rw [Nat.add_mul, Nat.one_mul] at hmul
  rw [bigEndian, bigEndian, hlen]
  rw [hlen] at ha
  omega

theorem firstDiff_spec : ∀ {a b : Bytes}, a.length = b.length → (firstDiff a b = none → a = b) ∧ ∀ x y, firstDiff a b = some (x, y) →
    x.toNat ≠ y.toNat ∧ (bigEndian a < bigEndian b ↔ x.toNat < y.toNat) ∧ (bigEndian b < bigEndian a ↔ y.toNat < x.toNat) := by
  intro a
  induction a with
  | nil =>
    intro b hlen
    obtain rfl : b = [] := length_eq_zero_iff.1 hlen.symm
    refine ⟨fun _ => rfl, fun x y h => ?_⟩
    cases h
  | cons z a ih =>
    intro b hlen
    cases b with
    | nil => exact absurd hlen (Nat.succ_ne_zero _)
    | cons w b =>
      have hlen' : a.length = b.length := Nat.succ.inj hlen
      by_cases hzw : z = w
      · subst hzw
        have hdiff : firstDiff (z :: a) (z :: b) = firstDiff a b := if_neg (not_not.2 rfl)
        obtain ⟨h1, h2⟩ := ih hlen'
        rw [hdiff, bigEndian, bigEndian, hlen', Nat.add_lt_add_iff_left, Nat.add_lt_add_iff_left]
        exact ⟨fun h => by rw [h1 h], h2⟩
      · have hne : z.toNat ≠ w.toNat := fun h => hzw (UInt8.toNat_inj.1 h)
        have hdiff : firstDiff (z :: a) (w :: b) = some (z, w) := if_pos hzw
        rw [hdiff]
        refine ⟨fun h => absurd h (some_ne_none _), fun x y h => ?_⟩
        obtain ⟨rfl, rfl⟩ := Prod.ext_iff.1 (Option.some.inj h)
        refine ⟨hne, ?_, ?_⟩
        · refine ⟨fun hlt => ?_, bigEndian_cons_lt hlen'⟩
          by_contra hnot
          exact absurd (bigEndian_cons_lt hlen'.symm (lt_of_le_of_ne (not_lt.1 hnot) hne.symm)) (Nat.lt_asymm hlt)
        · refine ⟨fun hlt => ?_, bigEndian_cons_lt hlen'.symm⟩
          by_contra hnot
          exact absurd (bigEndian_cons_lt hlen' (lt_of_le_of_ne (not_lt.1 hnot) hne)) (Nat.lt_asymm hlt)

theorem nativeInt_bounds (a : Bytes) : -2 ^ 31 ≤ nativeInt a ∧ nativeInt a < 2 ^ 31 := by
  unfold nativeInt
  split
  · have h1 := Int.le_bmod (x := (ofLittleEndian a : ℤ)) (m := 2 ^ 32) (by decide)
    have h2 := Int.bmod_lt (x := (ofLittleEndian a : ℤ)) (m := 2 ^ 32) (by decide)
    omega
  · omega

/-- The native integers are not so far apart that their difference wraps. -/
def IntsNear (K : List Bytes) : Prop := ∀ a ∈ K, ∀ b ∈ K, a.length = 4 → b.length = 4 → nativeInt a - nativeInt b < 2 ^ 31

/-- The first bytes in which two numbers differ both have the sign bit, or neither has. -/
def SidesSame (K : List Bytes) : Prop :=
  ∀ a ∈ K, ∀ b ∈ K, a.length = b.length → ∀ x y, firstDiff a b = some (x, y) → (x.toNat < 128 ↔ y.toNat < 128)

/-- The difference of two native integers wraps just if they are too far apart. -/
theorem bmod_diff {d : ℤ} (hlow : -2 ^ 32 < d) (hhigh : d < 2 ^ 32) :
    d.bmod (2 ^ 32) = if d < -2 ^ 31 then d + 2 ^ 32 else if d < 2 ^ 31 then d else d - 2 ^ 32 := by
  by_cases h1 : d < -2 ^ 31
  · rw [if_pos h1, ← Int.add_bmod_right]
    exact Int.bmod_eq_of_le (by omega) (by omega)
  · rw [if_neg h1]
    by_cases h2 : d < 2 ^ 31
    · rw [if_pos h2]
      exact Int.bmod_eq_of_le (by omega) (by omega)
    · rw [if_neg h2, ← Int.sub_bmod_right]
      exact Int.bmod_eq_of_le (by omega) (by omega)

/-- **`vlintcompare` orders keys** by their sizes, and keys of one size as native integers. -/
theorem vlintcompare_spec (hK : IntsNear K) (ha : a ∈ K) (hb : b ∈ K) :
    (vlintcompare a b < 0 ↔ toLex (a.length, nativeInt a) < toLex (b.length, nativeInt b)) ∧
      (vlintcompare a b = 0 ↔ toLex (a.length, nativeInt a) = toLex (b.length, nativeInt b)) := by
  rw [Prod.Lex.toLex_lt_toLex, toLex_inj, Prod.mk.injEq]
  unfold vlintcompare
  by_cases hlen : a.length = b.length
  · have hnear : -2 ^ 31 < nativeInt a - nativeInt b ∧ nativeInt a - nativeInt b < 2 ^ 31 := by
      by_cases hfour : a.length = 4
      · have h1 := hK a ha b hb hfour (hlen ▸ hfour)
        have h2 := hK b hb a ha (hlen ▸ hfour) hfour
        omega
      · unfold nativeInt
        omega
    rw [Int.bmod_eq_of_le (by omega) (by omega)]
    omega
  · omega

theorem signedChar_sub (h : x.toNat < 128 ↔ y.toNat < 128) : signedChar x - signedChar y = (x.toNat : ℤ) - y.toNat := by
  unfold signedChar
  split_ifs <;> omega

/-- **`vlnumcompare` orders keys** by their sizes, and keys of one size as numbers. -/
theorem vlnumcompare_spec (hK : SidesSame K) (ha : a ∈ K) (hb : b ∈ K) :
    (vlnumcompare a b < 0 ↔ toLex (a.length, bigEndian a) < toLex (b.length, bigEndian b)) ∧
      (vlnumcompare a b = 0 ↔ toLex (a.length, bigEndian a) = toLex (b.length, bigEndian b)) := by
  rw [Prod.Lex.toLex_lt_toLex, toLex_inj, Prod.mk.injEq]
  unfold vlnumcompare
  by_cases hlen : a.length = b.length
  · rw [if_neg (not_not.2 hlen)]
    obtain ⟨h1, h2⟩ := firstDiff_spec hlen
    cases hd : firstDiff a b with
    | none =>
      have heq := h1 hd
      subst heq
      exact ⟨iff_of_false (lt_irrefl 0) fun h => h.elim (lt_irrefl _) fun h => lt_irrefl _ h.2, iff_of_true rfl ⟨rfl, rfl⟩⟩
    | some d =>
      obtain ⟨x, y⟩ := d
      obtain ⟨hne, hab, hba⟩ := h2 x y hd
      dsimp only
      rw [signedChar_sub (hK a ha b hb hlen x y hd)]
      omega
  · omega

/-- **Each comparison is the order that it stands for** on some keys, and the search is sound with it. -/
structure Orders (K : List Bytes) : Prop where
  lex : TotalOn vllexcompare K
  lex_lt : ∀ a ∈ K, ∀ b ∈ K, (vllexcompare a b < 0 ↔ unsigned a < unsigned b) ∧ (vllexcompare a b = 0 ↔ unsigned a = unsigned b)
  int : TotalOn vlintcompare K
  int_lt : ∀ a ∈ K, ∀ b ∈ K, a.length = 4 → b.length = 4 →
    (vlintcompare a b < 0 ↔ nativeInt a < nativeInt b) ∧ (vlintcompare a b = 0 ↔ nativeInt a = nativeInt b)
  num : TotalOn vlnumcompare K
  num_lt : ∀ a ∈ K, ∀ b ∈ K, a.length = b.length →
    (vlnumcompare a b < 0 ↔ bigEndian a < bigEndian b) ∧ (vlnumcompare a b = 0 ↔ bigEndian a = bigEndian b)
  search : ∀ cmp ∈ [vllexcompare, vlintcompare, vlnumcompare], ∀ recs : List Bytes, (∀ x ∈ recs, x ∈ K) → Ascending cmp recs →
    ∀ key ∈ K, SearchSound cmp recs key

theorem orders_of_near (hint : IntsNear K) (hnum : SidesSame K) : Orders K := by
  have hlex : TotalOn vllexcompare K := totalOn_of_lt unsigned fun a _ b _ => vllexcompare_spec a b
  have hint' : TotalOn vlintcompare K := totalOn_of_lt (fun a => toLex (a.length, nativeInt a)) fun a ha b hb => vlintcompare_spec hint ha hb
  have hnum' : TotalOn vlnumcompare K := totalOn_of_lt (fun a => toLex (a.length, bigEndian a)) fun a ha b hb => vlnumcompare_spec hnum ha hb
  refine ⟨hlex, fun a _ b _ => vllexcompare_spec a b, hint', fun a ha b hb h4 h4' => ?_, hnum', fun a ha b hb hlen => ?_, ?_⟩
  · obtain ⟨h1, h2⟩ := vlintcompare_spec hint ha hb
    rw [Prod.Lex.toLex_lt_toLex, h4, h4'] at h1
    rw [toLex_inj, Prod.mk.injEq, h4, h4'] at h2
    exact ⟨h1.trans ⟨fun h => h.elim (fun h => absurd h (lt_irrefl _)) And.right, fun h => Or.inr ⟨rfl, h⟩⟩, h2.trans (and_iff_right rfl)⟩
  · obtain ⟨h1, h2⟩ := vlnumcompare_spec hnum ha hb
    rw [Prod.Lex.toLex_lt_toLex, hlen] at h1
    rw [toLex_inj, Prod.mk.injEq, hlen] at h2
    exact ⟨h1.trans ⟨fun h => h.elim (fun h => absurd h (lt_irrefl _)) And.right, fun h => Or.inr ⟨rfl, h⟩⟩, h2.trans (and_iff_right rfl)⟩
  · intro cmp hcmp recs hrecs hasc key hkey
    have htotal : TotalOn cmp K := by
      rcases mem_cons.1 hcmp with rfl | hcmp
      · exact hlex
      rcases mem_cons.1 hcmp with rfl | hcmp
      · exact hint'
      · rw [mem_singleton.1 hcmp]
        exact hnum'
    exact recsearch_sound htotal hrecs hasc hkey

theorem orders_iff (K : List Bytes) : Orders K ↔ IntsNear K ∧ SidesSame K := by
  constructor
  · intro h
    constructor
    · intro a ha b hb h4 h4'
      by_contra hfar
      have hbounds := nativeInt_bounds a
      have hbounds' := nativeInt_bounds b
      have hval : vlintcompare a b = nativeInt a - nativeInt b - 2 ^ 32 := by
        rw [vlintcompare, if_neg (not_not.2 (h4.trans h4'.symm)), bmod_diff (by omega) (by omega), if_neg (by omega), if_neg (by omega)]
      have := (h.int_lt a ha b hb h4 h4').1.1 (by omega)
      omega
    · intro a ha b hb hlen x y hd
      obtain ⟨hne, hab, hba⟩ := (firstDiff_spec hlen).2 x y hd
      have hval : vlnumcompare a b = signedChar x - signedChar y := by
        rw [vlnumcompare, if_neg (not_not.2 hlen), hd]
      obtain ⟨h1, h2⟩ := h.num_lt a ha b hb hlen
      rw [hval, hab] at h1
      have hx := x.toNat_lt
      have hy := y.toNat_lt
      unfold signedChar at h1
      split_ifs at h1 <;> omega
  · exact fun h => orders_of_near h.1 h.2

theorem orders_fail : ¬∀ K, Orders K := by
  intro h
  have hlt := (h [[0, 0, 0, 128], [0, 0, 0, 0]]).int_lt [0, 0, 0, 0] (by decide) [0, 0, 0, 128] (by decide) rfl rfl
  exact absurd (hlt.1.1 (by decide)) (by decide)

end KVStores.VillaDb
