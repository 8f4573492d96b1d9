import KVStores.Lib.Borders
import KVStores.Qdbm.CabinDump

/-!
# Searching strings

`cbstrstrkmp` and `cbstrstrbm` (`cabin.c`). A string is its bytes without the terminator, and a byte is read only up to it.

* `searches_iff`: **both searches do** in all strings just if no prefix of the needle is ended by one of 128 bytes or more, which
  the cells of the table do not hold.
-/

namespace KVStores.Cabin

open List Option Function

abbrev CString := {s : Bytes // 0 ∉ s}

def byteAt (s : Bytes) (i : ℕ) : Option UInt8 := if i ≤ s.length then some (s.getD i 0) else none

/-- `while((j >= 0) && (text[i] != needle[j])) j = tbl[j];`, with fuel. -/
@[grind =] def fall (text needle : Bytes) (tbl : List ℤ) (i : ℕ) : ℕ → ℤ → Option ℤ
  | 0, _ => none
  | fuel + 1, j =>
    if j < 0 then some j
    else do
      let a ← byteAt text i
      let b ← byteAt needle j.toNat
      if a ≠ b then
        let j ← tbl[j.toNat]?
        fall text needle tbl i fuel j
      else some j

def cell (j : ℤ) : ℤ := j.bmod (2 ^ 8)

@[grind =] def fillTable (needle : Bytes) : ℕ → ℕ → ℤ → List ℤ → Option (List ℤ)
  | 0, _, _, tbl => some tbl
  | left + 1, i, j, tbl => do
    let j ← fall needle needle tbl i (needle.length + 2) j
    fillTable needle left (i + 1) (j + 1) (tbl ++ [cell (j + 1)])

@[grind =] def searchLoop (haystack needle : Bytes) (tbl : List ℤ) : ℕ → ℕ → ℤ → Option (ℕ × ℤ)
  | 0, i, j => some (i, j)
  | left + 1, i, j =>
    if j < needle.length then do
      let j ← fall haystack needle tbl i (needle.length + 2) j
      searchLoop haystack needle tbl left (i + 1) (j + 1)
    else some (i, j)

/-- `cbstrstrkmp`: the place that it returns, if no byte outside of the strings was read. -/
def cbstrstrkmp (haystack needle : Bytes) : Option (Option ℕ) :=
  if 256 ≤ needle.length then some (firstOccurrence haystack needle)
  else do
    let tbl ← fillTable needle needle.length 0 (-1) [-1]
    let (i, j) ← searchLoop haystack needle tbl haystack.length 0 0
    some (if j = needle.length then some (i - needle.length) else none)

/-- `while(len > 0) tbl[*rp++] = --len;` -/
@[grind =] def skipTable : Bytes → (UInt8 → ℕ) → UInt8 → ℕ
  | [], tbl => tbl
  | c :: rest, tbl => skipTable rest (Function.update tbl c (rest.length % 256))

/-- The inner loop, from byte `i` down: the byte that differs, if there is one. -/
@[grind =] def matchDown (haystack needle : Bytes) (pos : ℕ) : ℕ → Option (Option ℕ)
  | 0 => do
    let a ← byteAt haystack pos
    let b ← byteAt needle 0
    if a = b then some none else some (some 0)
  | i + 1 => do
    let a ← byteAt haystack (pos + (i + 1))
    let b ← byteAt needle (i + 1)
    if a = b then matchDown haystack needle pos i else some (some (i + 1))

/-- The outer loop, with fuel: `nlen` is one less than the length of the needle. -/
@[grind =] def skipLoop (haystack needle : Bytes) (tbl : UInt8 → ℕ) (nlen : ℕ) : ℕ → ℕ → Option (Option ℕ)
  | 0, _ => none
  | fuel + 1, pos =>
    if (pos : ℤ) < haystack.length - nlen then do
      let found ← matchDown haystack needle pos nlen
      match found with
      | none => some (some pos)
      | some i => do
        let c ← byteAt haystack (pos + i)
        let j : ℤ := tbl c - nlen + i
        skipLoop haystack needle tbl nlen fuel (if 0 < j then pos + j.toNat else pos + 2)
    else some none

def cbstrstrbm (haystack needle : Bytes) : Option (Option ℕ) :=
  if needle.length < 3 ∨ 256 ≤ needle.length then some (firstOccurrence haystack needle)
  else skipLoop haystack needle (skipTable needle fun _ => needle.length % 256) (needle.length - 1) (haystack.length + 1) 0

variable {t n : Bytes} {tbl : List ℤ} {i k m fuel : ℕ}

theorem byteAt_of_lt (h : i < t.length) : byteAt t i = some t[i] := by
  rw [byteAt, if_pos h.le, getD_eq_getElem?_getD, List.getElem?_eq_getElem h, getD_some]

variable {b : ℤ}

theorem cell_of_lt (hlow : -128 ≤ b) (hhigh : b < 128) : cell b = b := Int.bmod_eq_of_le (by omega) (by omega)

theorem cell_le (hlow : -128 ≤ b) : cell b ≤ b := by
  rcases lt_or_ge b 128 with h | h
  · exact (cell_of_lt hlow h).le
  · have := Int.bmod_lt (x := b) (m := 2 ^ 8) (by decide)
    rw [cell]
    omega

theorem le_cell (b : ℤ) : -128 ≤ cell b := by
  have := Int.le_bmod (x := b) (m := 2 ^ 8) (by decide)
  rw [cell]
  omega

/-- A table whose first entries lead to shorter prefixes. -/
def Sane (tbl : List ℤ) (m : ℕ) : Prop := ∀ q < m, ∃ b, tbl[q]? = some b ∧ -128 ≤ b ∧ b < q

/-- A table whose first entries lead to the longest ones. -/
def Right (n : Bytes) (tbl : List ℤ) (m : ℕ) : Prop := ∀ q < m, ∃ b, tbl[q]? = some b ∧ IsFailure n q b

theorem fall_succ (tbl : List ℤ) (hi : i < t.length) (hk : k < n.length) :
    fall t n tbl i (fuel + 1) k = if t[i] = n[k] then some (k : ℤ) else (tbl[k]?).bind (fall t n tbl i fuel) := by
  rw [fall, if_neg (by omega), byteAt_of_lt hi, Int.toNat_natCast, byteAt_of_lt hk]
  by_cases heq : t[i] = n[k]
  · rw [if_pos heq]
    exact if_neg (not_not.2 heq)
  · rw [if_neg heq]
    exact if_pos heq

theorem fall_neg (t n : Bytes) (tbl : List ℤ) (i : ℕ) (hb : b < 0) : fall t n tbl i (fuel + 1) b = some b := by
  rw [fall, if_pos hb]

theorem fall_returns (hi : i < t.length) (htbl : Sane tbl m) (hm : m ≤ n.length) : ∀ {fuel : ℕ} {b : ℤ}, -128 ≤ b → b < m → b < fuel →
    ∃ c, fall t n tbl i (fuel + 1) b = some c ∧ -128 ≤ c ∧ c ≤ b := by
  intro fuel
  induction fuel with
  | zero => exact fun {b} h1 _ h3 => ⟨b, fall_neg t n tbl i h3, h1, Int.le_refl b⟩
  | succ fuel ih =>
    intro b h1 h2 h3
    rcases lt_or_ge b 0 with hb | hb
    · exact ⟨b, fall_neg t n tbl i hb, h1, Int.le_refl b⟩
    · obtain ⟨k, rfl⟩ := Int.eq_ofNat_of_zero_le hb
      have hk : k < n.length := by omega
      rw [fall_succ tbl hi hk]
      by_cases heq : t[i] = n[k]
      · exact ⟨k, if_pos heq, h1, Int.le_refl _⟩
      · obtain ⟨b, hb, hlow, hlt⟩ := htbl k (by omega)
        obtain ⟨c, hc, hclow, hle⟩ := ih hlow (by omega) (by omega)
        refine ⟨c, ?_, hclow, by omega⟩
        rw [if_neg heq, hb]
        exact hc

/-- With a right one it finds the longest prefix that goes on. -/
theorem fall_goesOn (hi : i < t.length) (htbl : Right n tbl m) (hm : m ≤ n.length) : ∀ {fuel : ℕ} {b : ℤ},
    (b = -1 ∨ ∃ k : ℕ, b = k ∧ k < m ∧ EndsAt n t i k) → b < fuel → ∃ c, fall t n tbl i (fuel + 1) b = some c ∧ GoesOn n t i b c := by
  intro fuel
  induction fuel with
  | zero =>
    intro b hb h
    obtain rfl : b = -1 := by
      rcases hb with rfl | ⟨k, rfl, -⟩ <;> omega
    exact ⟨-1, fall_neg t n tbl i h, GoesOn.nothing n t i⟩
  | succ fuel ih =>
    intro b hb h
    rcases hb with rfl | ⟨k, rfl, hkm, hends⟩
    · exact ⟨-1, fall_neg t n tbl i (by omega), GoesOn.nothing n t i⟩
    · have hk : k < n.length := by omega
      have hiff : EndsAt n t (i + 1) (k + 1) ↔ t[i] = n[k] := by
        rw [endsAt_succ hi]
        exact ⟨fun h => h.2.2.symm, fun h => ⟨hends, hk, h.symm⟩⟩
      rw [fall_succ tbl hi hk]
      by_cases heq : t[i] = n[k]
      · exact ⟨k, if_pos heq, GoesOn.found (hiff.2 heq)⟩
      · obtain ⟨b, hb, hfail⟩ := htbl k hkm
        have hb' : b = -1 ∨ ∃ k' : ℕ, b = k' ∧ k' < m ∧ EndsAt n t i k' := by
          rcases hfail with ⟨-, rfl⟩ | ⟨k', rfl, hk', hborder, -⟩
          · exact Or.inl rfl
          · exact Or.inr ⟨k', rfl, by omega, hends.trans hborder⟩
        have hlt := hfail.lt
        obtain ⟨c, hc, hgo⟩ := ih hb' (by omega)
        refine ⟨c, ?_, GoesOn.fall hi hends (mt hiff.1 heq) hfail hgo⟩
        rw [if_neg heq, hb]
        exact hc

variable {left : ℕ} {j c : ℤ}

theorem fillTable_succ (h : fall n n tbl i (n.length + 2) j = some c) :
    fillTable n (left + 1) i j tbl = fillTable n left (i + 1) (c + 1) (tbl ++ [cell (c + 1)]) := by
  rw [fillTable, h]
  rfl

theorem getElem?_push (hlen : tbl.length = i + 1) (k : ℕ) : (tbl ++ [b])[k]? = if k = i + 1 then some b else tbl[k]? := by
  by_cases hk : k = i + 1
  · rw [if_pos hk, hk, ← hlen, List.getElem?_concat_length]
  · rw [if_neg hk]
    rcases Nat.lt_or_ge k tbl.length with hlt | hge
    · exact List.getElem?_append_left hlt
    · rw [List.getElem?_eq_none hge, List.getElem?_eq_none]
      rw [length_append, length_singleton]
      omega

theorem Sane.push (h : Sane tbl (i + 1)) (hlen : tbl.length = i + 1) (hlow : -128 ≤ c) (hlt : c < i) : Sane (tbl ++ [cell (c + 1)]) (i + 2) := by
  intro q hq
  rw [getElem?_push hlen]
  by_cases hqi : q = i + 1
  · have := cell_le (b := c + 1) (by omega)
    exact ⟨_, if_pos hqi, le_cell _, by omega⟩
  · rw [if_neg hqi]
    exact h q (by omega)

theorem fillTable_sane : ∀ {left i : ℕ} {j : ℤ} {tbl : List ℤ}, left + i = n.length → tbl.length = i + 1 → Sane tbl (i + 1) → -128 ≤ j → j < i →
    ∃ tbl', fillTable n left i j tbl = some tbl' ∧ Sane tbl' (n.length + 1) ∧ ∀ q ≤ i, tbl'[q]? = tbl[q]? := by
  intro left
  induction left with
  | zero =>
    intro i j tbl hi hlen hsane _ _
    obtain rfl : i = n.length := by omega
    exact ⟨tbl, rfl, hsane, fun _ _ => rfl⟩
  | succ left ih =>
    intro i j tbl hi hlen hsane hlow hlt
    have hsane' : Sane tbl i := fun q hq => hsane q (by omega)
    obtain ⟨c, hc, hclow, hcle⟩ := @fall_returns n n tbl i i (by omega) hsane' (by omega) (n.length + 1) j hlow hlt (by omega)
    obtain ⟨tbl', htbl', hsane'', hkeep⟩ := @ih (i + 1) (c + 1) (tbl ++ [cell (c + 1)]) (by omega)
      (by rw [length_append, length_singleton, hlen]) (hsane.push hlen hclow (by omega)) (by omega) (by omega)
    refine ⟨tbl', (fillTable_succ hc).trans htbl', hsane'', fun q hq => ?_⟩
    rw [hkeep q (by omega), getElem?_push hlen, if_neg (by omega)]

/-- No prefix of fewer than `m` bytes is ended by one of 128 bytes or more. -/
def BordersShort (n : Bytes) (m : ℕ) : Prop := ∀ q < m, ∀ k < q, EndsAt n n q k → k < 128

theorem BordersShort.failure {q : ℕ} (h : BordersShort n m) (hq : q < m) (hb : IsFailure n q b) : cell b = b := by
  rcases hb with ⟨-, rfl⟩ | ⟨k, rfl, hk, hends, -⟩
  · exact cell_of_lt (by decide) (by decide)
  · have := h q hq k hk hends
    exact cell_of_lt (by omega) (by omega)

/-- What the table holds for the prefixes up to the first one with a long border. -/
def Filled (n : Bytes) (tbl : List ℤ) (m : ℕ) : Prop := ∀ q ≤ m, ∃ b, IsFailure n q b ∧ tbl[q]? = some (cell b)

/-- **The table is right** up to the first prefix with a long border. -/
theorem fillTable_spec (hm : m ≤ n.length) (hshort : BordersShort n m) : ∀ {left i : ℕ} {j : ℤ} {tbl : List ℤ}, left + i = n.length → i ≤ m →
    tbl.length = i + 1 → Sane tbl (i + 1) → -128 ≤ j → IsFailure n i j → Filled n tbl i →
    ∃ tbl', fillTable n left i j tbl = some tbl' ∧ Sane tbl' (n.length + 1) ∧ Filled n tbl' m := by
  intro left
  induction left with
  | zero =>
    intro i j tbl hi him hlen hsane _ _ hfilled
    obtain rfl : i = n.length := by omega
    obtain rfl : m = n.length := by omega
    exact ⟨tbl, rfl, hsane, hfilled⟩
  | succ left ih =>
    intro i j tbl hi him hlen hsane hlow hfail hfilled
    rcases Nat.eq_or_lt_of_le him with rfl | hlt
    · obtain ⟨tbl', htbl', hsane', hkeep⟩ := fillTable_sane hi hlen hsane hlow hfail.lt
      refine ⟨tbl', htbl', hsane', fun q hq => ?_⟩
      rw [hkeep q hq]
      exact hfilled q hq
    · have hright : Right n tbl i := by
        intro q hq
        obtain ⟨b, hb, hcell⟩ := hfilled q hq.le
        exact ⟨b, by rw [hcell, hshort.failure (by omega) hb], hb⟩
      have hj : j = -1 ∨ ∃ k : ℕ, j = k ∧ k < i ∧ EndsAt n n i k := by
        rcases hfail with ⟨-, rfl⟩ | ⟨k, rfl, hk, hends, -⟩
        · exact Or.inl rfl
        · exact Or.inr ⟨k, rfl, hk, hends⟩
      obtain ⟨c, hc, hgo⟩ := @fall_goesOn n n tbl i i (by omega) hright (by omega) (n.length + 1) j hj (by omega)
      have hnext := hfail.step (by omega) hgo
      have hcle := hgo.le_bound
      have hclow : -1 ≤ c := by
        rcases hgo.ends with rfl | ⟨k, rfl, -⟩ <;> omega
      obtain ⟨tbl', htbl', hrest⟩ := @ih (i + 1) (c + 1) (tbl ++ [cell (c + 1)]) (by omega) hlt
        (by rw [length_append, length_singleton, hlen]) (hsane.push hlen (by omega) (by omega)) (by omega) hnext fun q hq => by
          rw [getElem?_push hlen]
          by_cases hqi : q = i + 1
          · exact ⟨c + 1, hqi ▸ hnext, if_pos hqi⟩
          · rw [if_neg hqi]
            exact hfilled q (by omega)
      exact ⟨tbl', (fillTable_succ hc).trans htbl', hrest⟩

theorem fillTable_start (hm : m ≤ n.length) (hshort : BordersShort n m) :
    ∃ tbl, fillTable n n.length 0 (-1) [-1] = some tbl ∧ Sane tbl (n.length + 1) ∧ Filled n tbl m := by
  have hfail : IsFailure n 0 (-1) := Or.inl ⟨rfl, rfl⟩
  refine fillTable_spec hm hshort rfl (Nat.zero_le m) rfl (fun q hq => ?_) (by decide) hfail fun q hq => ?_
  · obtain rfl : q = 0 := by omega
    exact ⟨-1, rfl, by decide, by decide⟩
  · obtain rfl : q = 0 := by omega
    exact ⟨-1, hfail, by decide⟩

theorem searchLoop_succ (hj : j < n.length) (h : fall t n tbl i (n.length + 2) j = some c) :
    searchLoop t n tbl (left + 1) i j = searchLoop t n tbl left (i + 1) (c + 1) := by
  rw [searchLoop, if_pos hj, h]
  rfl

/-- Where the search stops: the needle did not end before. -/
structure Ended (t n : Bytes) (i k : ℕ) : Prop where
  le_length : i ≤ t.length
  longest : IsLongest n t i k
  unseen : ∀ i' < i, ¬EndsAt n t i' n.length
  stopped : k = n.length ∨ i = t.length

theorem searchLoop_spec (htbl : Right n tbl n.length) : ∀ {left i k : ℕ}, left + i = t.length → IsLongest n t i k →
    (∀ i' < i, ¬EndsAt n t i' n.length) → ∃ i' k' : ℕ, searchLoop t n tbl left i k = some (i', (k' : ℤ)) ∧ Ended t n i' k' := by
  intro left
  induction left with
  | zero =>
    intro i k hi hlong hunseen
    exact ⟨i, k, rfl, by omega, hlong, hunseen, Or.inr (by omega)⟩
  | succ left ih =>
    intro i k hi hlong hunseen
    by_cases hk : k < n.length
    · obtain ⟨c, hc, hgo⟩ := @fall_goesOn t n tbl i n.length (by omega) htbl le_rfl (n.length + 1) k (Or.inr ⟨k, rfl, hk, hlong.ends⟩) (by omega)
      obtain ⟨k', hk', hlong'⟩ := hlong.step (by omega) hgo
      rw [searchLoop_succ (by omega) hc, hk']
      refine ih (by omega) hlong' fun i' hi' hends => ?_
      rcases Nat.lt_succ_iff_lt_or_eq.1 hi' with hlt | rfl
      · exact hunseen i' hlt hends
      · have := hlong.longest _ hends
        omega
    · have hkn := hlong.ends.le_pattern
      refine ⟨i, k, ?_, by omega, hlong, hunseen, Or.inl (by omega)⟩
      rw [searchLoop, if_neg (by omega)]

theorem Filled.right (h : Filled n tbl m) (hshort : BordersShort n m) : Right n tbl m := by
  intro q hq
  obtain ⟨b, hb, hcell⟩ := h q hq.le
  exact ⟨b, by rw [hcell, hshort.failure hq hb], hb⟩

variable {p : ℕ}

theorem endsAt_of_occurs (h : n <+: t.drop p) (hp : p ≤ t.length) : p + n.length ≤ t.length ∧ EndsAt n t (p + n.length) n.length := by
  have hlen := h.length_le
  rw [length_drop] at hlen
  have hle : p + n.length ≤ t.length := by omega
  refine ⟨hle, (endsAt_length_iff hle).2 ⟨by omega, ?_⟩⟩
  rwa [Nat.add_sub_cancel]

/-- **Without long borders the first occurrence is found.** -/
theorem cbstrstrkmp_eq (hlen : n.length < 256) (hshort : BordersShort n n.length) : cbstrstrkmp t n = some (firstOccurrence t n) := by
  obtain ⟨tbl, htbl, -, hfilled⟩ := fillTable_start le_rfl hshort
  have hstart : IsLongest n t 0 0 := ⟨EndsAt.zero n t 0, fun k' h => h.le_place⟩
  obtain ⟨i, k, hsearch, hend⟩ := searchLoop_spec (hfilled.right hshort) (show t.length + 0 = t.length from rfl) hstart fun i' hi' => absurd hi' (Nat.not_lt_zero i')
  have heq : cbstrstrkmp t n = some (if (k : ℤ) = n.length then some (i - n.length) else none) := by
    rw [cbstrstrkmp, if_neg (by omega), htbl]
    change (searchLoop t n tbl t.length 0 ((0 : ℕ) : ℤ)).bind _ = _
    rw [hsearch]
    rfl
  rw [heq]
  refine congrArg some ?_
  by_cases hk : k = n.length
  · rw [if_pos (by omega)]
    obtain ⟨hle, hocc⟩ := (endsAt_length_iff hend.le_length).1 (hk ▸ hend.longest.ends)
    have := hend.le_length
    refine (firstOccurrence_eq_some.2 ⟨by omega, hocc, fun p hp hocc' => ?_⟩).symm
    exact hend.unseen _ (by omega) (endsAt_of_occurs hocc' (by omega)).2
  · rw [if_neg (by omega)]
    have hi := hend.stopped.resolve_left hk
    refine (firstOccurrence_eq_none.2 fun p hp hocc => ?_).symm
    obtain ⟨hle, hends⟩ := endsAt_of_occurs hocc hp
    rcases Nat.lt_or_ge (p + n.length) i with hlt | hge
    · exact hend.unseen _ hlt hends
    · obtain hpi : p + n.length = i := by omega
      have h1 := hend.longest.longest _ (hpi ▸ hends)
      have h2 := hend.longest.ends.le_pattern
      omega

theorem searchLoop_copy {J : ℕ} (hn : J ≤ n.length) (ht : J ≤ t.length) (h : ∀ i < J, t[i]? = n[i]?) : ∀ d i : ℕ, i + d = J →
    searchLoop t n tbl (left + d) i i = searchLoop t n tbl left J J := by
  intro d
  induction d with
  | zero =>
    rintro i rfl
    rfl
  | succ d ih =>
    intro i hi
    have hit : i < t.length := by omega
    have hin : i < n.length := by omega
    have heq : t[i] = n[i] := by
      have := h i (by omega)
      rw [List.getElem?_eq_getElem hit, List.getElem?_eq_getElem hin] at this
      exact Option.some.inj this
    have hfall : fall t n tbl i (n.length + 2) i = some (i : ℤ) := (fall_succ tbl hit hin).trans (if_pos heq)
    rw [← Nat.add_assoc, searchLoop_succ (by omega) hfall]
    exact ih (i + 1) (by omega)

theorem searchLoop_behind {d : ℤ} (htbl : Sane tbl (n.length + 1)) : ∀ {left i : ℕ} {j : ℤ}, left + i = t.length → -128 ≤ j → j ≤ i - d →
    ∃ (i' : ℕ) (j' : ℤ), searchLoop t n tbl left i j = some (i', j') ∧ j' ≤ i' - d ∧ i' ≤ t.length := by
  intro left
  induction left with
  | zero =>
    intro i j hi _ hj
    exact ⟨i, j, rfl, hj, by omega⟩
  | succ left ih =>
    intro i j hi hlow hj
    by_cases hjn : j < n.length
    · have hsane : Sane tbl n.length := fun q hq => htbl q (by omega)
      obtain ⟨c, hc, hclow, hcle⟩ := @fall_returns t n tbl i n.length (by omega) hsane le_rfl (n.length + 1) j hlow hjn (by omega)
      rw [searchLoop_succ hjn hc]
      exact ih (by omega) (by omega) (by push_cast; omega)
    · refine ⟨i, j, ?_, hj, by omega⟩
      rw [searchLoop, if_neg hjn]

def otherByte (c : UInt8) : UInt8 := if c = 1 then 2 else 1

theorem otherByte_ne (c : UInt8) : otherByte c ≠ c ∧ otherByte c ≠ 0 := by
  unfold otherByte
  by_cases h : c = 1
  · rw [if_pos h, h]
    exact ⟨by decide, by decide⟩
  · rw [if_neg h]
    exact ⟨Ne.symm h, by decide⟩

theorem cell_of_ge (hlow : 128 ≤ b) (hhigh : b < 256) : cell b = b - 256 := by
  rw [cell, ← Int.sub_bmod_right]
  exact Int.bmod_eq_of_le (by omega) (by omega)

/-- **With a long border an occurrence is missed.** -/
theorem cbstrstrkmp_misses {J : ℕ} (hlen : n.length < 256) (hJ : J < n.length) (hshort : BordersShort n J) (hk : k < J) (hends : EndsAt n n J k)
    (hlong : 128 ≤ k) : cbstrstrkmp (n.take J ++ otherByte n[J] :: n) n = some none := by
  obtain ⟨t, ht⟩ : ∃ t, n.take J ++ otherByte n[J] :: n = t := ⟨_, rfl⟩
  have htake : (n.take J).length = J := length_take_of_le hJ.le
  have htlen : t.length = n.length + 1 + J := by
    rw [← ht, length_append, htake, length_cons]
    omega
  have hJt : J < t.length := by omega
  have hcopy : ∀ i < J, t[i]? = n[i]? := by
    intro i hi
    rw [← ht, List.getElem?_append_left (by omega), List.getElem?_take_of_lt hi]
  have hother : t[J] = otherByte n[J] := by
    have hsome : t[J]? = some (otherByte n[J]) := by
      rw [← ht, List.getElem?_append_right htake.le, htake, Nat.sub_self]
      rfl
    rw [List.getElem?_eq_getElem hJt] at hsome
    exact Option.some.inj hsome
  obtain ⟨tbl, htbl, hsane, hfilled⟩ := fillTable_start hJ.le hshort
  obtain ⟨b, hb, hcell⟩ := hfilled J le_rfl
  -- the table sends the search too far back
  obtain ⟨m, rfl, hm, hm'⟩ : ∃ m : ℕ, b = m ∧ 128 ≤ m ∧ m < J := by
    rcases hb with ⟨rfl, -⟩ | ⟨m, rfl, hm, -, hmax⟩
    · omega
    · exact ⟨m, rfl, hlong.trans (hmax k hk hends), hm⟩
  rw [cell_of_ge (by omega) (by omega)] at hcell
  have hfall : fall t n tbl J (n.length + 2) J = some ((m : ℤ) - 256) := by
    rw [fall_succ tbl hJt hJ, if_neg (by rw [hother]; exact (otherByte_ne _).1), hcell]
    exact fall_neg t n tbl J (by omega)
  obtain ⟨i', j', hsearch, hbehind, hle⟩ := @searchLoop_behind t n tbl (J + 256 - m) hsane n.length (J + 1) (m - 256 + 1) (by omega) (by omega)
    (by push_cast; omega)
  have hloop : searchLoop t n tbl t.length 0 ((0 : ℕ) : ℤ) = some (i', j') := by
    rw [htlen, searchLoop_copy hJ.le hJt.le hcopy J 0 (Nat.zero_add J), searchLoop_succ (by omega) hfall]
    exact hsearch
  rw [ht, cbstrstrkmp, if_neg (by omega), htbl]
  change (searchLoop t n tbl t.length 0 ((0 : ℕ) : ℤ)).bind _ = _
  rw [hloop]
  exact congrArg some (if_neg (by omega))

theorem occurs_iff : n <+: t.drop p ↔ ∀ l < n.length, t[p + l]? = n[l]? := by
  rw [prefix_iff_getElem?]
  constructor
  · intro h l hl
    rw [List.getElem?_eq_getElem hl, ← h l hl, List.getElem?_drop]
  · intro h l hl
    rw [List.getElem?_drop, h l hl, List.getElem?_eq_getElem hl]

theorem skipTable_spec (c : UInt8) : ∀ (n : Bytes) (tbl : UInt8 → ℕ), n.length ≤ 256 → (c ∉ n ∧ skipTable n tbl c = tbl c) ∨
    ∃ k < n.length, n[k]? = some c ∧ skipTable n tbl c = n.length - 1 - k ∧ ∀ l, k < l → n[l]? ≠ some c := by
  intro n
  induction n with
  | nil => exact fun tbl _ => Or.inl ⟨not_mem_nil, rfl⟩
  | cons d n ih =>
    intro tbl hlen
    rw [length_cons] at hlen
    rw [skipTable, Nat.mod_eq_of_lt (by omega)]
    rcases ih (Function.update tbl d n.length) (by omega) with ⟨hmem, heq⟩ | ⟨k, hk, hc, heq, hlast⟩
    · by_cases hcd : c = d
      · right
        subst hcd
        refine ⟨0, Nat.succ_pos _, rfl, ?_, fun l hl hc => ?_⟩
        · rw [heq, update_self, length_cons]
          omega
        · obtain ⟨l', rfl⟩ : ∃ l', l = l' + 1 := ⟨l - 1, by omega⟩
          exact hmem (mem_of_getElem? hc)
      · left
        refine ⟨fun h => (mem_cons.1 h).elim hcd hmem, ?_⟩
        rw [heq, update_of_ne hcd]
    · right
      refine ⟨k + 1, Nat.succ_lt_succ hk, ?_, ?_, fun l hl => ?_⟩
      · rwa [List.getElem?_cons_succ]
      · rw [heq, length_cons]
        omega
      · obtain ⟨l', rfl⟩ : ∃ l', l = l' + 1 := ⟨l - 1, by omega⟩
        exact hlast l' (by omega)

variable {pos : ℕ}

theorem matchDown_spec : ∀ {i : ℕ}, pos + i < t.length → i < n.length → (matchDown t n pos i = some none ∧ ∀ l ≤ i, t[pos + l]? = n[l]?) ∨
      ∃ m ≤ i, matchDown t n pos i = some (some m) ∧ t[pos + m]? ≠ n[m]? ∧ ∀ l, m < l → l ≤ i → t[pos + l]? = n[l]? := by
  intro i
  induction i with
  | zero =>
    intro hi hn
    have hround : matchDown t n pos 0 = if t[pos] = n[0] then some none else some (some 0) := by
      rw [matchDown, byteAt_of_lt (show pos < t.length from hi), byteAt_of_lt hn]
      rfl
    by_cases heq : t[pos] = n[0]
    · left
      refine ⟨hround.trans (if_pos heq), fun l hl => ?_⟩
      obtain rfl : l = 0 := by omega
      rw [List.getElem?_eq_getElem hi, List.getElem?_eq_getElem hn]
      exact congrArg some heq
    · right
      refine ⟨0, le_rfl, hround.trans (if_neg heq), fun h => ?_, fun l h1 h2 => by omega⟩
      rw [List.getElem?_eq_getElem hi, List.getElem?_eq_getElem hn] at h
      exact heq (Option.some.inj h)
  | succ i ih =>
    intro hi hn
    have hround : matchDown t n pos (i + 1) = if t[pos + (i + 1)] = n[i + 1] then matchDown t n pos i else some (some (i + 1)) := by
      rw [matchDown, byteAt_of_lt hi, byteAt_of_lt hn]
      rfl
    by_cases heq : t[pos + (i + 1)] = n[i + 1]
    · rw [hround, if_pos heq]
      have hsame : t[pos + (i + 1)]? = n[i + 1]? := by
        rw [List.getElem?_eq_getElem hi, List.getElem?_eq_getElem hn]
        exact congrArg some heq
      rcases ih (by omega) (by omega) with ⟨h1, h2⟩ | ⟨m, hm, h1, h2, h3⟩
      · left
        refine ⟨h1, fun l hl => ?_⟩
        rcases Nat.le_succ_iff.1 hl with hle | rfl
        · exact h2 l hle
        · exact hsame
      · right
        refine ⟨m, by omega, h1, h2, fun l hml hl => ?_⟩
        rcases Nat.le_succ_iff.1 hl with hle | rfl
        · exact h3 l hml hle
        · exact hsame
    · right
      refine ⟨i + 1, le_rfl, hround.trans (if_neg heq), fun h => ?_, fun l h1 h2 => by omega⟩
      rw [List.getElem?_eq_getElem hi, List.getElem?_eq_getElem hn] at h
      exact heq (Option.some.inj h)

variable {m : ℕ} {c : UInt8} {tbl : UInt8 → ℕ}

theorem no_occurrence (hm : m < n.length) (hlen : n.length ≤ 256) (hc : t[pos + m]? = some c)
    (hne : t[pos + m]? ≠ n[m]?) (hsame : ∀ l, m < l → l < n.length → t[pos + l]? = n[l]?) (htbl : ∀ c, tbl c = n.length) (hp : pos ≤ p)
    (hskip : (p : ℤ) < if 0 < (skipTable n tbl c : ℤ) - (n.length - 1 : ℕ) + m then pos + ((skipTable n tbl c : ℤ) - (n.length - 1 : ℕ) + m) else pos + 2) :
    ¬n <+: t.drop p := by
  intro hocc
  rw [occurs_iff] at hocc
  have hat : p ≤ pos + m → n[pos + m - p]? = some c := by
    intro hle
    rw [← hocc (pos + m - p) (by omega), show p + (pos + m - p) = pos + m by omega]
    exact hc
  rcases skipTable_spec c n tbl hlen with ⟨hmem, heq⟩ | ⟨k, hk, hck, heq, hlast⟩
  · rw [heq, htbl, if_pos (by omega)] at hskip
    exact hmem (mem_of_getElem? (hat (by omega)))
  · rcases Nat.lt_trichotomy k m with hlt | rfl | hgt
    · exact hlast _ (by omega) (hat (by omega))
    · exact hne (hc.trans hck.symm)
    · have hpos : p = pos ∨ p = pos + 1 := by omega
      rcases hpos with rfl | rfl
      · exact hne (hocc m hm)
      · -- one place further the bytes from `m` to `k` would be the same ones
        have hrun : ∀ d, m + d ≤ k → n[m + d]? = n[m]? := by
          intro d
          induction d with
          | zero => exact fun _ => rfl
          | succ d ih =>
            intro hd
            rw [← ih (by omega), ← hocc (m + d) (by omega), ← hsame (m + (d + 1)) (by omega) (by omega)]
            exact congrArg (t[·]?) (by omega)
        have := hrun (k - m) (by omega)
        rw [show m + (k - m) = k by omega, hck] at this
        exact hne (hc.trans this)

theorem skipLoop_succ {nlen : ℕ} (hgo : (pos : ℤ) < t.length - nlen) (hdown : matchDown t n pos nlen = some (some m))
    (hc : byteAt t (pos + m) = some c) : skipLoop t n tbl nlen (fuel + 1) pos =
      skipLoop t n tbl nlen fuel (if 0 < (tbl c : ℤ) - nlen + m then pos + ((tbl c : ℤ) - nlen + m).toNat else pos + 2) := by
  rw [skipLoop, if_pos hgo, hdown]
  change (byteAt t (pos + m)).bind _ = _
  rw [hc]
  rfl

/-- **The skips leave out no occurrence.** -/
theorem skipLoop_spec (hlen : n.length ≤ 256) (hpos : 0 < n.length) (htbl : ∀ c, tbl c = n.length) : ∀ {fuel pos : ℕ},
    t.length ≤ fuel + pos → (∀ p < pos, ¬n <+: t.drop p) →
    skipLoop t n (skipTable n tbl) (n.length - 1) (fuel + 1) pos = some (firstOccurrence t n) := by
  intro fuel
  induction fuel with
  | zero =>
    intro pos hfuel hnone
    rw [skipLoop, if_neg (by omega)]
    refine congrArg some (firstOccurrence_eq_none.2 fun p hp hocc => ?_).symm
    rcases Nat.lt_or_ge p pos with hlt | hge
    · exact hnone p hlt hocc
    · have := (endsAt_of_occurs hocc hp).1
      omega
  | succ fuel ih =>
    intro pos hfuel hnone
    by_cases hgo : (pos : ℤ) < t.length - (n.length - 1 : ℕ)
    · rcases matchDown_spec (show pos + (n.length - 1) < t.length by omega) (show n.length - 1 < n.length by omega) with ⟨hdown, hsame⟩ | ⟨m, hm, hdown, hne, hsame⟩
      · rw [skipLoop, if_pos hgo, hdown]
        refine congrArg some (firstOccurrence_eq_some.2 ⟨by omega, occurs_iff.2 fun l hl => hsame l (by omega), hnone⟩).symm
      · have hat : pos + m < t.length := by omega
        obtain ⟨c, hc⟩ : ∃ c, t[pos + m] = c := ⟨_, rfl⟩
        have hc' : t[pos + m]? = some c := by rw [List.getElem?_eq_getElem hat, hc]
        have hskip : ∀ p : ℕ, pos ≤ p → _ → ¬n <+: t.drop p := fun p => no_occurrence (by omega) hlen hc' hne (fun l h1 h2 => hsame l h1 (by omega)) htbl
        rw [skipLoop_succ hgo hdown ((byteAt_of_lt hat).trans (congrArg some hc))]
        split
        · rename_i hj
          refine ih (by omega) fun p hp => ?_
          rcases Nat.lt_or_ge p pos with hlt | hge
          · exact hnone p hlt
          · exact hskip p hge (by omega)
        · rename_i hj
          refine ih (by omega) fun p hp => ?_
          rcases Nat.lt_or_ge p pos with hlt | hge
          · exact hnone p hlt
          · exact hskip p hge (by omega)
    · rw [skipLoop, if_neg hgo]
      refine congrArg some (firstOccurrence_eq_none.2 fun p hp hocc => ?_).symm
      rcases Nat.lt_or_ge p pos with hlt | hge
      · exact hnone p hlt hocc
      · have := (endsAt_of_occurs hocc hp).1
        omega

theorem cbstrstrbm_eq (t n : Bytes) : cbstrstrbm t n = some (firstOccurrence t n) := by
  unfold cbstrstrbm
  split
  · rfl
  · rename_i h
    exact skipLoop_spec (by omega) (by omega) (fun c => Nat.mod_eq_of_lt (by omega)) (Nat.le_add_right _ _) fun p hp => absurd hp (Nat.not_lt_zero p)

/-- Both searches find what `strstr` does, and read no byte outside of the strings. -/
def Searches (haystack needle : CString) : Prop :=
  cbstrstrkmp haystack.1 needle.1 = some (firstOccurrence haystack.1 needle.1) ∧
    cbstrstrbm haystack.1 needle.1 = some (firstOccurrence haystack.1 needle.1)

theorem searches_iff (needle : CString) : (∀ haystack : CString, Searches haystack needle) ↔
    256 ≤ needle.1.length ∨ BordersShort needle.1 needle.1.length := by
  obtain ⟨n, hn⟩ := needle
  constructor
  · intro h
    by_contra hnot
    obtain ⟨hlen, hlong⟩ := not_or.1 hnot
    -- the first prefix with a long border
    have hex : ∃ q, q < n.length ∧ ∃ k < q, EndsAt n n q k ∧ 128 ≤ k := by
      by_contra hno
      refine hlong fun q hq k hk hends => ?_
      by_contra hge
      exact hno ⟨q, hq, k, hk, hends, not_lt.1 hge⟩
    classical
    obtain ⟨hJ, k, hk, hends, hlong'⟩ := Nat.find_spec hex
    have hshort : BordersShort n (Nat.find hex) := by
      intro q hq k' hk' hends'
      by_contra hge
      exact Nat.find_min hex hq ⟨by omega, k', hk', hends', not_lt.1 hge⟩
    have hmiss := cbstrstrkmp_misses (not_le.1 hlen) hJ hshort hk hends hlong'
    have hfree : (0 : UInt8) ∉ n.take (Nat.find hex) ++ otherByte n[Nat.find hex] :: n := by
      rw [mem_append, mem_cons]
      rintro (hmem | hmem | hmem)
      · exact hn (mem_of_mem_take hmem)
      · exact (otherByte_ne _).2 hmem.symm
      · exact hn hmem
    have hfound := (h ⟨_, hfree⟩).1
    rw [hmiss] at hfound
    refine firstOccurrence_eq_none.1 (Option.some.inj hfound).symm (Nat.find hex + 1) ?_ ?_
    · rw [length_append, length_take_of_le hJ.le, length_cons]
      omega
    · dsimp only
      rw [drop_append, length_take_of_le hJ.le, Nat.add_sub_cancel_left, drop_eq_nil_of_le (by rw [length_take_of_le hJ.le]; omega)]
      exact prefix_rfl
  · rintro h ⟨t, ht⟩
    refine ⟨?_, cbstrstrbm_eq t n⟩
    by_cases hlen : 256 ≤ n.length
    · rw [cbstrstrkmp, if_pos hlen]
    · exact cbstrstrkmp_eq (not_le.1 hlen) (h.resolve_left hlen)

theorem searches_fail : ¬∀ haystack needle, Searches haystack needle := by
  intro h
  have hshort := (h ⟨List.replicate 129 97 ++ 98 :: List.replicate 130 97, by decide⟩ ⟨List.replicate 130 97, by decide⟩).1
  exact absurd hshort (by decide +kernel)

end KVStores.Cabin
