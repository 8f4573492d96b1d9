import KVStores.Lib.Decimal
import KVStores.Gdb.Strings

/-!
# String objects

String objects of Redis (`object.c`, `util.c`): bytes, or a `long` in their place, and the
comparisons of both.

* `compareStringObjects_spec`: **the comparison of the skip lists compares the bytes as well**, but for a
  numeral and bytes that begin with it and a zero byte (`Clash`).
-/

namespace KVStores.Redis

open List Option

open Gdb (cstr strcmp strcmpBytes strcmpBytes_spec)

/-- A `long`, or a `long long`. -/
abbrev Long := { v : ℤ // -2 ^ 63 ≤ v ∧ v < 2 ^ 63 }

def ullongMax : ℕ := 2 ^ 64 - 1

def ll2string (value : ℤ) : List UInt8 := if value < 0 then 45 :: decimal value.natAbs else decimal value.natAbs

/-- The loop of `string2ll` over the digits behind the first one: a fault in the number is no number. -/
@[grind =] def string2llLoop : ℕ → List UInt8 → Option ℕ
  | v, [] => some v
  | v, c :: p =>
    if isDigit c = true then
      if ullongMax / 10 < v then none
      else if ullongMax - digitVal c < v * 10 then none
      else string2llLoop (v * 10 + digitVal c) p
    else none

/-- The last lines of `string2ll`. -/
def string2llSign (negative : Bool) (v : ℕ) : Option Long :=
  if negative = true then if h : v ≤ 2 ^ 63 then some ⟨-v, by omega, by omega⟩ else none
  else if h : v < 2 ^ 63 then some ⟨v, by omega, by omega⟩ else none

/-- `string2ll` behind the sign. -/
def string2llDigits (negative : Bool) : List UInt8 → Option Long
  | [] => none
  | c :: p => if 49 ≤ c.toNat ∧ c.toNat ≤ 57 then (string2llLoop (digitVal c) p).bind (string2llSign negative) else none

def string2ll (s : List UInt8) : Option Long :=
  match s with
  | [] => none
  | c :: p =>
    if c = 48 ∧ p = [] then some ⟨0, by omega, by omega⟩
    else if c = 45 then string2llDigits true p
    else string2llDigits false (c :: p)

theorem string2llLoop_iff : ∀ (p : List UInt8) {v w : ℕ}, string2llLoop v p = some w ↔
    (∀ c ∈ p, isDigit c = true) ∧ w = decimalValue v p ∧ (p = [] ∨ w ≤ ullongMax) := by
  intro p
  induction p with
  | nil =>
    intro v w
    rw [string2llLoop, decimalValue_nil]
    constructor
    · intro h
      exact ⟨fun c hc => (not_mem_nil hc).elim, (Option.some.inj h).symm, Or.inl rfl⟩
    · rintro ⟨-, rfl, -⟩
      rfl
  | cons c p ih =>
    intro v w
    have hmax : ullongMax = 18446744073709551615 := rfl
    rw [string2llLoop, decimalValue_cons]
    by_cases hc : isDigit c = true
    · have hval : digitVal c < 10 := by
        have := (isDigit_iff.1 hc).2
        unfold digitVal
        omega
      have hle := le_decimalValue (v * 10 + digitVal c) p
      rw [if_pos hc]
      -- a number that fits has not overflowed on the way
      have hover : ∀ {P : Prop}, ullongMax < v * 10 + digitVal c →
          ((none : Option ℕ) = some w ↔ P ∧ w = decimalValue (v * 10 + digitVal c) p ∧ (c :: p = [] ∨ w ≤ ullongMax)) := by
        intro P hlt
        refine iff_of_false (fun h => (by cases h)) ?_
        rintro ⟨-, rfl, h | h⟩
        · cases h
        · omega
      by_cases h1 : ullongMax / 10 < v
      · rw [if_pos h1]
        exact hover (by omega)
      rw [if_neg h1]
      by_cases h2 : ullongMax - digitVal c < v * 10
      · rw [if_pos h2]
        exact hover (by omega)
      rw [if_neg h2, ih]
      constructor
      · rintro ⟨g1, rfl, g3⟩
        refine ⟨fun b hb => ?_, rfl, Or.inr ?_⟩
        · rcases mem_cons.1 hb with rfl | hb
          · exact hc
          · exact g1 b hb
        · rcases g3 with rfl | g3
          · rw [decimalValue_nil]
            omega
          · exact g3
      · rintro ⟨g1, rfl, g3⟩
        exact ⟨fun b hb => g1 b (mem_cons_of_mem c hb), rfl, Or.inr (g3.resolve_left (cons_ne_nil c p))⟩
    · rw [if_neg hc]
      refine iff_of_false (fun h => (by cases h)) ?_
      rintro ⟨h, -⟩
      exact hc (h c mem_cons_self)

variable {negative : Bool} {v : Long}

theorem string2llSign_iff {n : ℕ} : string2llSign negative n = some v ↔ v.1 = if negative = true then -(n : ℤ) else n := by
  have hv := v.2
  unfold string2llSign
  cases negative with
  | true =>
    rw [if_pos rfl, if_pos rfl]
    by_cases h : n ≤ 2 ^ 63
    · rw [dif_pos h, some_inj, Subtype.ext_iff, eq_comm]
    · rw [dif_neg h]
      exact iff_of_false (fun hc => (by cases hc)) (by omega)
  | false =>
    rw [if_neg Bool.false_ne_true, if_neg Bool.false_ne_true]
    by_cases h : n < 2 ^ 63
    · rw [dif_pos h, some_inj, Subtype.ext_iff, eq_comm]
    · rw [dif_neg h]
      exact iff_of_false (fun hc => (by cases hc)) (by omega)

variable {s : List UInt8}

theorem string2llDigits_iff :
    string2llDigits negative s = some v ↔ ∃ n, 0 < n ∧ s = decimal n ∧ v.1 = if negative = true then -(n : ℤ) else n := by
  have hv := v.2
  have hmax : ullongMax = 18446744073709551615 := rfl
  cases s with
  | nil =>
    refine iff_of_false (fun h => (by cases h)) ?_
    rintro ⟨n, -, h, -⟩
    obtain ⟨c, l, heq, -⟩ := decimal_head n
    rw [heq] at h
    cases h
  | cons c p =>
    rw [string2llDigits]
    constructor
    · intro h
      by_cases hc : 49 ≤ c.toNat ∧ c.toNat ≤ 57
      · rw [if_pos hc] at h
        obtain ⟨n, hn, hsign⟩ := bind_eq_some_iff.1 h
        obtain ⟨hdigits, rfl, -⟩ := (string2llLoop_iff p).1 hn
        have hall : ∀ b ∈ c :: p, isDigit b = true := by
          intro b hb
          rcases mem_cons.1 hb with rfl | hb
          · exact isDigit_iff.2 ⟨by omega, hc.2⟩
          · exact hdigits b hb
        have hval : decimalValue (digitVal c) p = decimalValue 0 (c :: p) := by rw [decimalValue_cons, Nat.zero_mul, Nat.zero_add]
        obtain ⟨h1, h2⟩ := decimal_decimalValue p hc.1 hall
        rw [hval] at hsign
        exact ⟨_, h2, h1.symm, string2llSign_iff.1 hsign⟩
      · rw [if_neg hc] at h
        cases h
    · rintro ⟨n, hn, hs, hval⟩
      obtain ⟨c', l, heq, hc, -⟩ := decimal_head n
      rw [heq] at hs
      obtain ⟨rfl, rfl⟩ := List.cons.inj hs
      have hdigits := isDigit_decimal n
      rw [heq] at hdigits
      have hread : decimalValue (digitVal c) p = n := by
        have := decimalValue_decimal n
        rwa [heq, decimalValue_cons, Nat.zero_mul, Nat.zero_add] at this
      have hbound : n ≤ ullongMax := by
        cases negative with
        | true =>
          rw [if_pos rfl] at hval
          omega
        | false =>
          rw [if_neg Bool.false_ne_true] at hval
          omega
      rw [if_pos ⟨hc hn, (isDigit_iff.1 (hdigits c mem_cons_self)).2⟩,
        (string2llLoop_iff p).2 ⟨fun b hb => hdigits b (mem_cons_of_mem c hb), hread.symm, Or.inr hbound⟩, bind_some]
      exact string2llSign_iff.2 hval

theorem string2ll_iff : string2ll s = some v ↔ s = ll2string v.1 := by
  have hzero : decimal 0 = [48] := by decide
  have hhead : ∀ n, ∃ c l, decimal n = c :: l ∧ c ≠ 45 := by
    intro n
    obtain ⟨c, l, heq, -⟩ := decimal_head n
    refine ⟨c, l, heq, ?_⟩
    rintro rfl
    have := isDigit_decimal n 45 (by rw [heq]; exact mem_cons_self)
    revert this
    decide
  unfold ll2string
  cases s with
  | nil =>
    refine iff_of_false (fun h => (by cases h)) ?_
    intro h
    by_cases hv : v.1 < 0
    · rw [if_pos hv] at h
      cases h
    · rw [if_neg hv] at h
      obtain ⟨c, l, heq, -⟩ := hhead v.1.natAbs
      rw [heq] at h
      cases h
  | cons c p =>
    rw [string2ll]
    by_cases h0 : c = 48 ∧ p = []
    · -- the numeral of zero
      obtain ⟨rfl, rfl⟩ := h0
      rw [if_pos ⟨rfl, rfl⟩]
      constructor
      · intro h
        obtain rfl := Option.some.inj h
        exact hzero.symm
      · intro h
        by_cases hv : v.1 < 0
        · rw [if_pos hv] at h
          exact absurd (List.cons.inj h).1 (by decide)
        · rw [if_neg hv] at h
          have hread := decimalValue_decimal v.1.natAbs
          rw [← h] at hread
          have hval : decimalValue 0 [48] = 0 := by decide
          rw [hval] at hread
          rw [some_inj, Subtype.ext_iff]
          change (0 : ℤ) = v.1
          omega
    rw [if_neg h0]
    by_cases hminus : c = 45
    · subst hminus
      rw [if_pos rfl, string2llDigits_iff]
      constructor
      · rintro ⟨n, hn, rfl, hval⟩
        rw [if_pos rfl] at hval
        rw [if_pos (by omega), show v.1.natAbs = n by omega]
      · intro h
        by_cases hv : v.1 < 0
        · rw [if_pos hv] at h
          refine ⟨v.1.natAbs, by omega, (List.cons.inj h).2, ?_⟩
          rw [if_pos rfl]
          omega
        · rw [if_neg hv] at h
          obtain ⟨c, l, heq, hc⟩ := hhead v.1.natAbs
          rw [heq] at h
          exact absurd (List.cons.inj h).1.symm hc
    · rw [if_neg hminus, string2llDigits_iff]
      constructor
      · rintro ⟨n, hn, heq, hval⟩
        rw [if_neg Bool.false_ne_true] at hval
        rw [if_neg (by omega), show v.1.natAbs = n by omega, heq]
      · intro h
        by_cases hv : v.1 < 0
        · rw [if_pos hv] at h
          exact absurd (List.cons.inj h).1 hminus
        · rw [if_neg hv] at h
          refine ⟨v.1.natAbs, ?_, h, ?_⟩
          · by_contra hn
            rw [show v.1.natAbs = 0 by omega, hzero] at h
            obtain ⟨h1, h2⟩ := List.cons.inj h
            exact h0 ⟨h1, h2⟩
          · rw [if_neg Bool.false_ne_true]
            omega

/-- A string object: `REDIS_ENCODING_RAW`, or `REDIS_ENCODING_INT`. -/
inductive Robj
  | raw (s : List UInt8)
  | int (v : Long)
deriving DecidableEq

/-- The bytes of `getDecodedObject`. -/
def getDecodedObject : Robj → List UInt8
  | .raw s => s
  | .int v => ll2string v.1

/-- `tryObjectEncoding`; an object that is shared stays as it is. -/
def tryObjectEncoding (shared : Bool) : Robj → Robj
  | .int v => .int v
  | .raw s => if shared = true then .raw s else (string2ll s).elim (.raw s) .int

/-- `memcmp` of as many bytes as both have. -/
@[grind =] def memcmp : List UInt8 → List UInt8 → ℤ
  | a :: s, b :: t => if a = b then memcmp s t else (a.toNat : ℤ) - b.toNat
  | _, _ => 0

def sdscmp (s t : List UInt8) : ℤ := if memcmp s t = 0 then (s.length : ℤ) - t.length else memcmp s t

def compareStringObjects : Robj → Robj → ℤ
  | .raw s, .raw t => sdscmp s t
  | a, b => strcmp (cstr (getDecodedObject a)) (cstr (getDecodedObject b))

def equalStringObjects : Robj → Robj → Bool
  | .int v, .int w => decide (v = w)
  | a, b => decide (compareStringObjects a b = 0)

def dictEncObjKeyCompare : Robj → Robj → Bool
  | .int v, .int w => decide (v = w)
  | a, b => decide ((getDecodedObject a).length = (getDecodedObject b).length) && decide (memcmp (getDecodedObject a) (getDecodedObject b) = 0)

theorem tryObjectEncoding_decoded (shared : Bool) (o : Robj) : getDecodedObject (tryObjectEncoding shared o) = getDecodedObject o := by
  cases o with
  | int v => rfl
  | raw s =>
    rw [tryObjectEncoding]
    by_cases h : shared = true
    · rw [if_pos h]
    · rw [if_neg h]
      cases hs : string2ll s with
      | none => rfl
      | some v => exact (string2ll_iff.1 hs).symm

/-- The bytes as numbers, in whose lexicographic order members are. -/
def ordBytes (s : List UInt8) : List ℕ := s.map UInt8.toNat

variable {t : List UInt8}

theorem ordBytes_injective (h : ordBytes s = ordBytes t) : s = t :=
  (map_injective_iff.2 fun _ _ hxy => UInt8.toNat_inj.1 hxy) h

theorem memcmp_zero : ∀ {s t : List UInt8}, s.length = t.length → (memcmp s t = 0 ↔ s = t)
  | [], [], _ => ⟨fun _ => rfl, fun _ => rfl⟩
  | a :: s, b :: t, h => by
    rw [memcmp]
    by_cases hab : a = b
    · rw [if_pos hab, memcmp_zero (Nat.succ.inj h), hab, cons_inj_right]
    · rw [if_neg hab]
      refine iff_of_false (fun hz => hab (UInt8.toNat_inj.1 (by omega))) fun hc => hab (List.cons.inj hc).1
  | [], _ :: _, h => by cases h
  | _ :: _, [], h => by cases h

theorem sdscmp_cons (a b : UInt8) (s t : List UInt8) :
    sdscmp (a :: s) (b :: t) = if a = b then sdscmp s t else (a.toNat : ℤ) - b.toNat := by
  unfold sdscmp
  rw [memcmp]
  by_cases hab : a = b
  · rw [if_pos hab, if_pos hab, length_cons, length_cons]
    by_cases hz : memcmp s t = 0
    · rw [if_pos hz, if_pos hz]
      omega
    · rw [if_neg hz, if_neg hz]
  · have hne : (a.toNat : ℤ) - b.toNat ≠ 0 := fun hz => hab (UInt8.toNat_inj.1 (by omega))
    rw [if_neg hab, if_neg hab, if_neg hne]

/-- **`sdscmp`** decides the lexicographic order of the bytes. -/
theorem sdscmp_spec (s t : List UInt8) : (sdscmp s t < 0 ↔ ordBytes s < ordBytes t) ∧ (sdscmp s t = 0 ↔ s = t) := by
  induction s generalizing t with
  | nil =>
    cases t with
    | nil => exact ⟨⟨fun h => absurd h (lt_irrefl 0), fun h => absurd h (lt_irrefl _)⟩, fun _ => rfl, fun _ => rfl⟩
    | cons b t =>
      have hval : sdscmp [] (b :: t) = -((t.length : ℤ) + 1) := by
        unfold sdscmp memcmp
        rw [if_pos rfl, length_nil, length_cons]
        omega
      rw [hval]
      exact ⟨iff_of_true (by omega) (nil_lt_cons _ _), iff_of_false (by omega) fun h => (by cases h)⟩
  | cons a s ih =>
    cases t with
    | nil =>
      have hval : sdscmp (a :: s) [] = (s.length : ℤ) + 1 := by
        unfold sdscmp memcmp
        rw [if_pos rfl, length_nil, length_cons]
        omega
      rw [hval]
      exact ⟨iff_of_false (by omega) fun h => absurd h (not_lt_nil _), iff_of_false (by omega) fun h => (by cases h)⟩
    | cons b t =>
      rw [sdscmp_cons]
      have hcons : ordBytes (a :: s) < ordBytes (b :: t) ↔ a.toNat < b.toNat ∨ a.toNat = b.toNat ∧ ordBytes s < ordBytes t :=
        cons_lt_cons_iff
      rw [hcons]
      by_cases hab : a = b
      · subst hab
        rw [if_pos rfl, (ih t).1, (ih t).2, cons_inj_right]
        exact ⟨⟨fun h => Or.inr ⟨rfl, h⟩, fun h => (h.resolve_left (lt_irrefl _)).2⟩, Iff.rfl⟩
      · have hne : a.toNat ≠ b.toNat := fun h => hab (UInt8.toNat_inj.1 h)
        rw [if_neg hab]
        refine ⟨⟨fun h => Or.inl (by omega), fun h => ?_⟩, iff_of_false (by omega) fun h => hab (List.cons.inj h).1⟩
        have := h.resolve_right fun hc => hne hc.1
        omega

variable {a b : Robj}

theorem dictEncObjKeyCompare_iff : dictEncObjKeyCompare a b = true ↔ getDecodedObject a = getDecodedObject b := by
  have hbytes : ∀ {s t : List UInt8}, (decide (s.length = t.length) && decide (memcmp s t = 0)) = true ↔ s = t := by
    intro s t
    rw [Bool.and_eq_true, decide_eq_true_iff, decide_eq_true_iff]
    exact ⟨fun h => (memcmp_zero h.1).1 h.2, fun h => by rw [h]; exact ⟨rfl, (memcmp_zero rfl).2 rfl⟩⟩
  cases a with
  | raw s => cases b <;> exact hbytes
  | int v =>
    cases b with
    | raw t => exact hbytes
    | int w =>
      refine decide_eq_true_iff.trans ⟨fun h => by rw [h], fun h => ?_⟩
      have hv := string2ll_iff.2 (rfl : ll2string v.1 = ll2string v.1)
      rw [show ll2string v.1 = ll2string w.1 from h, string2ll_iff.2 rfl] at hv
      exact (Option.some.inj hv).symm

/-- The first is a numeral, and the second begins with it and a zero byte. -/
def Clash (s t : List UInt8) : Prop := string2ll s ≠ none ∧ ∃ z, t = s ++ 0 :: z

theorem strcmpBytes_cut : ∀ {s t : List UInt8}, (0 : UInt8) ∉ s → ¬ (∃ z, t = s ++ 0 :: z) →
    (strcmpBytes s (t.takeWhile (· ≠ 0)) < 0 ↔ ordBytes s < ordBytes t) ∧ (strcmpBytes s (t.takeWhile (· ≠ 0)) = 0 ↔ s = t) ∧
      (strcmpBytes (t.takeWhile (· ≠ 0)) s < 0 ↔ ordBytes t < ordBytes s) ∧ (strcmpBytes (t.takeWhile (· ≠ 0)) s = 0 ↔ t = s) := by
  intro s t hs hno
  -- what is cut off behind the zero byte does not decide, unless it is all that differs
  have hspec := strcmpBytes_spec s (t.takeWhile (· ≠ 0))
  have hspec' := strcmpBytes_spec (t.takeWhile (· ≠ 0)) s
  rw [hspec.1, hspec.2, hspec'.1, hspec'.2]
  clear hspec hspec'
  change (ordBytes s < ordBytes (t.takeWhile (· ≠ 0)) ↔ _) ∧ _ ∧ (ordBytes (t.takeWhile (· ≠ 0)) < ordBytes s ↔ _) ∧ _
  induction s generalizing t with
  | nil =>
    cases t with
    | nil => exact ⟨Iff.rfl, Iff.rfl, Iff.rfl, Iff.rfl⟩
    | cons b t =>
      have hb : b ≠ 0 := by
        rintro rfl
        exact hno ⟨t, rfl⟩
      rw [takeWhile_cons_of_pos (by simpa using hb)]
      exact ⟨iff_of_true (nil_lt_cons _ _) (nil_lt_cons _ _), iff_of_false (fun h => (by cases h)) fun h => (by cases h),
        iff_of_false (not_lt_nil _) (not_lt_nil _), iff_of_false (fun h => (by cases h)) fun h => (by cases h)⟩
  | cons a s ih =>
    cases t with
    | nil => exact ⟨Iff.rfl, Iff.rfl, Iff.rfl, Iff.rfl⟩
    | cons b t =>
      have ha : a ≠ 0 := fun h => hs (h ▸ mem_cons_self)
      have hcons : ∀ {x y : UInt8} {p q : List UInt8}, ordBytes (x :: p) < ordBytes (y :: q) ↔
          x.toNat < y.toNat ∨ x.toNat = y.toNat ∧ ordBytes p < ordBytes q := cons_lt_cons_iff
      by_cases hb : b = 0
      · -- the zero byte itself decides
        subst hb
        have hpos : 0 < a.toNat := Nat.pos_of_ne_zero fun h => ha (UInt8.toNat_inj.1 h)
        have hz : (0 : UInt8).toNat = 0 := rfl
        rw [takeWhile_cons_of_neg (by decide)]
        refine ⟨iff_of_false (not_lt_nil _) ?_, iff_of_false (fun h => (by cases h)) fun h => ha (List.cons.inj h).1,
          iff_of_true (nil_lt_cons _ _) ?_, iff_of_false (fun h => (by cases h)) fun h => ha (List.cons.inj h).1.symm⟩
        · rw [hcons, hz]
          omega
        · rw [hcons, hz]
          exact Or.inl hpos
      · rw [takeWhile_cons_of_pos (by simpa using hb), hcons, hcons, hcons, hcons]
        by_cases hab : a = b
        · subst hab
          obtain ⟨h1, h2, h3, h4⟩ := @ih t (fun h => hs (mem_cons_of_mem a h)) fun ⟨z, hz⟩ => hno ⟨z, by rw [hz]; rfl⟩
          rw [h1, h3, cons_inj_right, cons_inj_right, cons_inj_right, cons_inj_right, h2, h4]
          exact ⟨Iff.rfl, Iff.rfl, Iff.rfl, Iff.rfl⟩
        · have hne : a.toNat ≠ b.toNat := fun h => hab (UInt8.toNat_inj.1 h)
          refine ⟨or_congr_right (iff_of_false (fun h => hne h.1) fun h => hne h.1),
            iff_of_false (fun h => hab (List.cons.inj h).1) fun h => hab (List.cons.inj h).1,
            or_congr_right (iff_of_false (fun h => hne h.1.symm) fun h => hne h.1.symm),
            iff_of_false (fun h => hab (List.cons.inj h).1.symm) fun h => hab (List.cons.inj h).1.symm⟩

theorem ll2string_noNul (v : ℤ) : (0 : UInt8) ∉ ll2string v := by
  have hdigits : (0 : UInt8) ∉ decimal v.natAbs := fun h => absurd (isDigit_decimal _ 0 h) (by decide)
  unfold ll2string
  by_cases hv : v < 0
  · rw [if_pos hv, mem_cons, not_or]
    exact ⟨by decide, hdigits⟩
  · rwa [if_neg hv]

theorem cstr_noNul (h : (0 : UInt8) ∉ s) : s.takeWhile (· ≠ 0) = s := by
  rw [takeWhile_eq_self_iff]
  intro c hc
  exact decide_eq_true fun h0 => h (h0 ▸ hc)

theorem compareStringObjects_spec (hab : ¬ Clash (getDecodedObject a) (getDecodedObject b))
    (hba : ¬ Clash (getDecodedObject b) (getDecodedObject a)) :
    (compareStringObjects a b < 0 ↔ ordBytes (getDecodedObject a) < ordBytes (getDecodedObject b)) ∧
      (compareStringObjects a b = 0 ↔ getDecodedObject a = getDecodedObject b) := by
  -- a numeral against anything else
  have hint : ∀ (v : Long) (o : Robj), ¬ Clash (ll2string v.1) (getDecodedObject o) → ¬ ∃ z, getDecodedObject o = ll2string v.1 ++ 0 :: z := by
    rintro v o h ⟨z, hz⟩
    refine h ⟨?_, z, hz⟩
    rw [string2ll_iff.2 rfl]
    exact some_ne_none v
  cases a with
  | raw s =>
    cases b with
    | raw t => exact sdscmp_spec s t
    | int w =>
      obtain ⟨-, -, h3, h4⟩ := strcmpBytes_cut (ll2string_noNul w.1) (hint w (.raw s) hba)
      have hcut := cstr_noNul (ll2string_noNul w.1)
      change (strcmpBytes (s.takeWhile (· ≠ 0)) ((ll2string w.1).takeWhile (· ≠ 0)) < 0 ↔ _) ∧
        (strcmpBytes (s.takeWhile (· ≠ 0)) ((ll2string w.1).takeWhile (· ≠ 0)) = 0 ↔ _)
      rw [hcut]
      exact ⟨h3, h4⟩
  | int v =>
    obtain ⟨h1, h2, -, -⟩ := strcmpBytes_cut (ll2string_noNul v.1) (hint v b hab)
    have hcut := cstr_noNul (ll2string_noNul v.1)
    have hcmp : compareStringObjects (.int v) b =
        strcmpBytes ((ll2string v.1).takeWhile (· ≠ 0)) ((getDecodedObject b).takeWhile (· ≠ 0)) := by
      cases b <;> rfl
    rw [hcmp, hcut]
    exact ⟨h1, h2⟩

theorem equalStringObjects_spec (hab : ¬ Clash (getDecodedObject a) (getDecodedObject b))
    (hba : ¬ Clash (getDecodedObject b) (getDecodedObject a)) : equalStringObjects a b = true ↔ getDecodedObject a = getDecodedObject b := by
  have hcmp : decide (compareStringObjects a b = 0) = true ↔ getDecodedObject a = getDecodedObject b :=
    decide_eq_true_iff.trans (compareStringObjects_spec hab hba).2
  cases a with
  | raw s => cases b <;> exact hcmp
  | int v =>
    cases b with
    | raw t => exact hcmp
    | int w => exact dictEncObjKeyCompare_iff (a := .int v) (b := .int w)

theorem not_clash {s t : List UInt8} (h : (0 : UInt8) ∉ t) : ¬ Clash s t := by
  rintro ⟨-, z, rfl⟩
  exact h (mem_append_right _ mem_cons_self)

end KVStores.Redis
