import KVStores.Redis.Intset
import KVStores.Redis.Object

/-!
# What the operations on sets of integers do

`Intset.Holds`: what the memory of a set of integers looks like.
-/

namespace KVStores.Redis

open List Option

open Packed

structure Intset.Holds (is : Intset) (l : List ℤ) : Prop where
  encoding : is.encoding = 2 ∨ is.encoding = 4 ∨ is.encoding = 8
  length : is.length = l.length
  contents : is.contents = packed is.encoding l
  sorted : l.Pairwise (· < ·)
  fits : ∀ v ∈ l, FitsWidth is.encoding v
  small : l.length * is.encoding < 2 ^ 32

variable {is is' : Intset} {l la lb : List ℤ} {value : ℤ}

variable {enc : ℕ}

theorem cellWidth_eq (h : enc = 2 ∨ enc = 4 ∨ enc = 8) : cellWidth enc = enc := by
  rcases h with rfl | rfl | rfl <;> rfl

theorem valueEncoding_cases (v : ℤ) : intsetValueEncoding v = 2 ∨ intsetValueEncoding v = 4 ∨ intsetValueEncoding v = 8 := by
  unfold intsetValueEncoding
  split
  · exact Or.inr (Or.inr rfl)
  split
  · exact Or.inr (Or.inl rfl)
  · exact Or.inl rfl

variable {v : ℤ}

theorem fitsWidth_two : FitsWidth 2 v ↔ -2 ^ 15 ≤ v ∧ v < 2 ^ 15 := by
  have hpow : (256 : ℤ) ^ 2 = 65536 := by norm_num
  rw [FitsWidth, hpow]
  omega

theorem fitsWidth_four : FitsWidth 4 v ↔ -2 ^ 31 ≤ v ∧ v < 2 ^ 31 := by
  have hpow : (256 : ℤ) ^ 4 = 4294967296 := by norm_num
  rw [FitsWidth, hpow]
  omega

theorem fitsWidth_eight (v : Long) : FitsWidth 8 v.1 := by
  have hpow : (256 : ℤ) ^ 8 = 18446744073709551616 := by norm_num
  rw [FitsWidth, hpow]
  omega

/-- **The encoding of a value is the smallest one that it fits.** -/
theorem valueEncoding_le_iff (v : Long) (h : enc = 2 ∨ enc = 4 ∨ enc = 8) : intsetValueEncoding v.1 ≤ enc ↔ FitsWidth enc v.1 := by
  unfold intsetValueEncoding intsetEncInt64 intsetEncInt32 intsetEncInt16
  rcases h with rfl | rfl | rfl
  · rw [fitsWidth_two]
    split_ifs <;> omega
  · rw [fitsWidth_four]
    split_ifs <;> omega
  · refine iff_of_true ?_ (fitsWidth_eight v)
    split_ifs <;> omega

theorem Intset.Holds.width (h : is.Holds l) : cellWidth is.encoding = is.encoding := cellWidth_eq h.encoding

variable {i : ℕ}

theorem Intset.Holds.getCell (h : is.Holds l) (hi : l[i]? = some v) : intsetGetCell is i = some v := by
  obtain ⟨hlt, hv⟩ := List.getElem?_eq_some_iff.1 hi
  have hcut : l = l.take i ++ v :: l.drop (i + 1) := by rw [← hv, getElem_cons_drop, take_append_drop]
  have hread := read_cell (w := is.encoding) (n := i) (l.take i) (l.drop (i + 1)) v [] (by rw [length_take]; omega)
  rw [← hcut, append_nil] at hread
  rw [intsetGetCell, intsetGetEncoded, h.width, h.contents, hread, map_some, ofSignedBytes_signedBytes (h.fits v (mem_of_getElem? hi))]

theorem sorted_lt (h : l.Pairwise (· < ·)) {j : ℕ} {x y : ℤ} (hi : l[i]? = some x) (hj : l[j]? = some y) (hij : i < j) : x < y := by
  obtain ⟨hi', rfl⟩ := List.getElem?_eq_some_iff.1 hi
  obtain ⟨hj', rfl⟩ := List.getElem?_eq_some_iff.1 hj
  exact pairwise_iff_getElem.1 h i j hi' hj' hij

def SmallerBefore (l : List ℤ) (value p : ℤ) : Prop := ∀ (i : ℕ) (v : ℤ), l[i]? = some v → (i : ℤ) < p → v < value

def LargerFrom (l : List ℤ) (value p : ℤ) : Prop := ∀ (i : ℕ) (v : ℤ), l[i]? = some v → p ≤ (i : ℤ) → value < v

/-- What is looked for is between `min` and `max`, if it is there; when nothing is between them, it is not there. -/
theorem searchLoop_spec (h : is.Holds l) (value : ℤ) : ∀ (fuel : ℕ) (min max mid cur : ℤ), 0 ≤ min → min ≤ max + 1 → max < l.length →
    max - min + 1 < fuel → SmallerBefore l value min → LargerFrom l value (max + 1) → (max < min → cur ≠ value) →
    ∃ min' mid' cur', searchLoop is value fuel min max mid cur = some (min', mid', cur') ∧ ((cur' = value ∧ l[mid'.toNat]? = some value) ∨
        (cur' ≠ value ∧ 0 ≤ min' ∧ min' ≤ l.length ∧ SmallerBefore l value min' ∧ LargerFrom l value min')) := by
  intro fuel
  induction fuel with
  | zero =>
    intro min max mid cur hmin hmax _ hfuel
    push_cast at hfuel
    omega
  | succ fuel ih =>
    intro min max mid cur hmin hmax hlen hfuel hbefore hfrom hcur
    push_cast at hfuel
    rw [searchLoop]
    by_cases hend : max < min
    · have hmeet : max + 1 = min := by omega
      rw [if_pos hend]
      rw [hmeet] at hfrom
      exact ⟨min, mid, cur, rfl, Or.inr ⟨hcur hend, hmin, by omega, hbefore, hfrom⟩⟩
    rw [if_neg hend]
    dsimp only
    have hmid : min ≤ (min + max) / 2 ∧ (min + max) / 2 ≤ max := by omega
    generalize (min + max) / 2 = m at hmid ⊢
    obtain ⟨k, rfl⟩ := Int.eq_ofNat_of_zero_le (le_trans hmin hmid.1)
    obtain ⟨v, hv⟩ : ∃ v, l[k]? = some v := ⟨l.get ⟨k, by omega⟩, List.getElem?_eq_getElem (by omega)⟩
    rw [Int.toNat_natCast, h.getCell hv, bind_some]
    by_cases hless : v < value
    · -- go on behind the middle
      rw [if_pos hless]
      refine ih (k + 1) max k v (by omega) (by omega) hlen (by omega) ?_ hfrom fun _ => hless.ne
      intro i x hi hik
      rcases Nat.lt_or_eq_of_le (show i ≤ k by omega) with hlt | rfl
      · exact (sorted_lt h.sorted hi hv hlt).trans hless
      · rw [← Option.some.inj (hv.symm.trans hi)]
        exact hless
    rw [if_neg hless]
    by_cases hmore : value < v
    · -- go on in front of it
      rw [if_pos hmore]
      refine ih min (k - 1) k v hmin (by omega) (by omega) (by omega) hbefore ?_ fun _ => hmore.ne'
      intro i x hi hki
      rcases Nat.lt_or_eq_of_le (show k ≤ i by omega) with hlt | rfl
      · exact hmore.trans (sorted_lt h.sorted hv hi hlt)
      · rw [← Option.some.inj (hv.symm.trans hi)]
        exact hmore
    · have hsame : v = value := le_antisymm (not_lt.1 hmore) (not_lt.1 hless)
      rw [if_neg hmore]
      exact ⟨min, k, v, rfl, Or.inl ⟨hsame, by rw [Int.toNat_natCast, hv, hsame]⟩⟩

structure SearchFound (l : List ℤ) (value : ℤ) (found : Bool) (pos : ℕ) : Prop where
  there : found = true → ∃ la lb, l = la ++ value :: lb ∧ la.length = pos
  missing : found = false → ∃ la lb, l = la ++ lb ∧ la.length = pos ∧ (∀ v ∈ la, v < value) ∧ ∀ v ∈ lb, value < v

theorem searchFound_there (h : l[i]? = some value) : SearchFound l value true i := by
  obtain ⟨hlt, hv⟩ := List.getElem?_eq_some_iff.1 h
  refine ⟨fun _ => ⟨l.take i, l.drop (i + 1), ?_, by rw [length_take]; omega⟩, fun h => (by cases h)⟩
  rw [← hv, getElem_cons_drop, take_append_drop]

variable {p : ℕ}

theorem searchFound_missing (hp : p ≤ l.length) (hbefore : SmallerBefore l value p) (hfrom : LargerFrom l value p) : SearchFound l value false p := by
  refine ⟨fun h => (by cases h), fun _ => ⟨l.take p, l.drop p, (take_append_drop p l).symm, by rw [length_take]; omega, ?_, ?_⟩⟩
  · intro v hv
    obtain ⟨i, hi, rfl⟩ := getElem_of_mem hv
    rw [length_take] at hi
    refine hbefore i _ ?_ (by omega)
    rw [getElem_take, List.getElem?_eq_getElem (by omega)]
  · intro v hv
    obtain ⟨i, hi, rfl⟩ := getElem_of_mem hv
    rw [length_drop] at hi
    refine hfrom (p + i) _ ?_ (by push_cast; omega)
    rw [getElem_drop, List.getElem?_eq_getElem (by omega)]

theorem intsetSearch_spec (h : is.Holds l) (value : ℤ) : ∃ found pos, intsetSearch is value = some (found, pos) ∧ SearchFound l value found pos := by
  rw [intsetSearch, h.length]
  by_cases hempty : l.length = 0
  · obtain rfl := length_eq_zero_iff.1 hempty
    exact ⟨false, 0, rfl, ⟨fun h => (by cases h), fun _ => ⟨[], [], rfl, rfl, fun v hv => absurd hv not_mem_nil, fun v hv => absurd hv not_mem_nil⟩⟩⟩
  rw [if_neg hempty]
  obtain ⟨last, hlast⟩ : ∃ v, l[l.length - 1]? = some v := ⟨l.get ⟨l.length - 1, by omega⟩, List.getElem?_eq_getElem (by omega)⟩
  obtain ⟨first, hfirst⟩ : ∃ v, l[0]? = some v := ⟨l.get ⟨0, by omega⟩, List.getElem?_eq_getElem (by omega)⟩
  rw [h.getCell hlast, bind_some]
  by_cases hmore : last < value
  · -- larger than all
    rw [if_pos hmore]
    refine ⟨false, l.length, rfl, searchFound_missing (Nat.le_refl _) ?_ ?_⟩
    · intro i v hi hlt
      rcases Nat.lt_or_eq_of_le (show i ≤ l.length - 1 by omega) with hlt | rfl
      · exact (sorted_lt h.sorted hi hlast hlt).trans hmore
      · rw [← Option.some.inj (hlast.symm.trans hi)]
        exact hmore
    · intro i v hi hle
      have := (List.getElem?_eq_some_iff.1 hi).1
      omega
  rw [if_neg hmore, h.getCell hfirst, bind_some]
  by_cases hless : value < first
  · -- smaller than all
    rw [if_pos hless]
    refine ⟨false, 0, rfl, searchFound_missing (Nat.zero_le _) ?_ ?_⟩
    · intro i v _ hlt
      omega
    · intro i v hi _
      rcases Nat.eq_zero_or_pos i with rfl | hpos
      · rw [← Option.some.inj (hfirst.symm.trans hi)]
        exact hless
      · exact hless.trans (sorted_lt h.sorted hfirst hi hpos)
  rw [if_neg hless]
  obtain ⟨min, mid, cur, hloop, hfound⟩ := searchLoop_spec h value (l.length + 1) 0 (l.length - 1) (-1) (-1) (by omega) (by omega) (by omega)
    (by push_cast; omega) (fun i v _ hlt => by omega)
    (fun i v hi hle => by
      have := (List.getElem?_eq_some_iff.1 hi).1
      omega) (fun hlt => by omega)
  rw [hloop, map_some]
  rcases hfound with ⟨hcur, hat⟩ | ⟨hcur, hmin, hlen, hbefore, hfrom⟩
  · rw [if_pos hcur.symm]
    exact ⟨true, mid.toNat, rfl, searchFound_there hat⟩
  · obtain ⟨p, rfl⟩ := Int.eq_ofNat_of_zero_le hmin
    rw [if_neg (Ne.symm hcur), Int.toNat_natCast]
    exact ⟨false, p, rfl, searchFound_missing (by omega) hbefore hfrom⟩

variable {w : ℕ}

theorem outside_range (hv : FitsWidth w v) (hvalue : ¬ FitsWidth w value) : (value < 0 → value < v) ∧ (¬ value < 0 → v < value) := by
  have hlow := hv.1
  have hhigh := hv.2
  rw [FitsWidth, not_and_or] at hvalue
  omega

/-- **The cells get wider in place**: between the old cells, still to be read, and the new ones is a gap. -/
theorem upgradeLoop_spec (is : Intset) (hw : w = 2 ∨ w = 4 ∨ w = 8) (henc : is.encoding = 2 ∨ is.encoding = 4 ∨ is.encoding = 8) (hle : w ≤ is.encoding) :
    ∀ (n : ℕ) (l : List ℤ) (g b : Bytes), l.length = n → (∀ v ∈ l, FitsWidth w v) → n * w + g.length = (n + p) * is.encoding →
      ∃ g', upgradeLoop p w n { is with contents := packed w l ++ g ++ b } = some { is with contents := g' ++ packed is.encoding l ++ b } ∧
        g'.length = p * is.encoding := by
  intro n
  induction n with
  | zero =>
    intro l g b hn _ hgap
    obtain rfl := length_eq_zero_iff.1 hn
    rw [Nat.zero_mul, Nat.zero_add, Nat.zero_add] at hgap
    refine ⟨g, ?_, hgap⟩
    rw [upgradeLoop, packed_nil, packed_nil, append_nil, nil_append]
  | succ n ih =>
    intro l g b hn hfits hgap
    rcases eq_nil_or_concat l with rfl | ⟨l, v, rfl⟩
    · cases hn
    rw [concat_eq_append] at hn hfits ⊢
    rw [length_append, length_singleton, Nat.add_right_cancel_iff] at hn
    have hv : FitsWidth w v := hfits v (mem_append_right _ mem_cons_self)
    have hspan : (n + 1 + p) * is.encoding = (n + p) * is.encoding + is.encoding := by rw [Nat.add_right_comm, Nat.succ_mul]
    have hfront : n * w ≤ (n + p) * is.encoding := Nat.mul_le_mul (Nat.le_add_right n p) hle
    rw [Nat.succ_mul] at hgap
    -- the old cell and the gap have room for the new cell at their end
    have hroom : (signedBytes w v ++ g).length = (n + p) * is.encoding - n * w + is.encoding := by
      rw [length_append, length_signedBytes]
      omega
    obtain ⟨gap, cell, hcut, hgapLen, hcellLen⟩ : ∃ gap cell, signedBytes w v ++ g = gap ++ cell ∧ gap.length = (n + p) * is.encoding - n * w ∧
        cell.length = is.encoding :=
      ⟨_, _, (take_append_drop ((n + p) * is.encoding - n * w) _).symm, by rw [length_take]; omega, by rw [length_drop]; omega⟩
    have hread := read_cell (w := w) (n := n) l [] v (g ++ b) hn.symm
    have hwrite := Memory.write_at (a := packed w l ++ gap) (b := cell) (c := b) (l := signedBytes is.encoding v) (p := (n + p) * is.encoding)
      (by rw [length_append, length_packed, hn, hgapLen]; omega) (by rw [length_signedBytes, hcellLen])
    have hblock : packed w (l ++ [v]) ++ g ++ b = packed w l ++ gap ++ cell ++ b := by
      rw [packed_append, packed_cons, packed_nil, append_nil, append_assoc (packed w l), hcut, ← append_assoc (packed w l)]
    have hgetCell : intsetGetEncoded { is with contents := packed w (l ++ [v]) ++ g ++ b } n w = some v := by
      rw [intsetGetEncoded, cellWidth_eq hw, append_assoc, hread, map_some, ofSignedBytes_signedBytes hv]
    have hset : intsetSet { is with contents := packed w (l ++ [v]) ++ g ++ b } (n + p) v =
        some { is with contents := packed w l ++ gap ++ (signedBytes is.encoding v ++ b) } := by
      rw [intsetSet, cellWidth_eq henc, hblock, hwrite, map_some]
      simp only [append_assoc]
    obtain ⟨g', hrest, hlen⟩ := ih l gap (signedBytes is.encoding v ++ b) hn (fun x hx => hfits x (mem_append_left _ hx))
      (by rw [hgapLen]; omega)
    refine ⟨g', ?_, hlen⟩
    rw [upgradeLoop, hgetCell, bind_some, hset, bind_some, hrest, packed_append, packed_cons, packed_nil, append_nil]
    simp only [append_assoc]

variable {n : ℕ}

theorem intsetResize_spec (fill : ℕ → UInt8) (is : Intset) {len : ℕ} {b : Bytes} (hlen : l.length * w ≤ n * is.encoding) (hroom : n * is.encoding < 2 ^ 32)
    (hcontents : is.contents = packed w l ++ b) (hfield : is.length = len) :
    ∃ x, intsetResize fill is n = ⟨is.encoding, len, packed w l ++ x⟩ ∧ x.length = n * is.encoding - l.length * w := by
  obtain ⟨x, hrealloc, hx⟩ := Memory.realloc_append (b := b) fill (show (packed w l).length ≤ n * is.encoding by rwa [length_packed])
  rw [length_packed] at hx
  exact ⟨x, by rw [intsetResize, Nat.mod_eq_of_lt hroom, hcontents, hrealloc, hfield], hx⟩

/-- **A value that needs wider cells** gets in at one end. -/
theorem intsetUpgradeAndAdd_spec (h : is.Holds l) (v : Long) (henc : is.encoding < intsetValueEncoding v.1)
    (hroom : (l.length + 1) * intsetValueEncoding v.1 < 2 ^ 32) (fill : ℕ → UInt8) :
    ∃ is', intsetUpgradeAndAdd fill is v.1 = some is' ∧ is'.Holds (if v.1 < 0 then v.1 :: l else l ++ [v.1]) := by
  have hcases := valueEncoding_cases v.1
  have hfits : FitsWidth (intsetValueEncoding v.1) v.1 := (valueEncoding_le_iff v hcases).1 (Nat.le_refl _)
  have hnot : ¬ FitsWidth is.encoding v.1 := fun hf => absurd ((valueEncoding_le_iff v h.encoding).2 hf) (by omega)
  have hwide : ∀ x ∈ l, FitsWidth (intsetValueEncoding v.1) x := fun x hx => (h.fits x hx).mono henc.le
  have hout : ∀ x ∈ l, (v.1 < 0 → v.1 < x) ∧ (¬ v.1 < 0 → x < v.1) := fun x hx => outside_range (h.fits x hx) hnot
  unfold intsetUpgradeAndAdd
  generalize intsetValueEncoding v.1 = w at henc hroom hcases hfits hwide ⊢
  have hmul : (l.length + 1) * w = l.length * w + w := Nat.succ_mul _ _
  have hnarrow : l.length * is.encoding ≤ l.length * w := Nat.mul_le_mul_left _ henc.le
  have hone : l.length + 1 ≤ (l.length + 1) * w := Nat.le_mul_of_pos_right _ (by omega)
  have hsmall : (l.length + 1) % 2 ^ 32 = l.length + 1 := Nat.mod_eq_of_lt (by omega)
  obtain ⟨x, hresize, hx⟩ := intsetResize_spec (b := []) fill { is with encoding := w } (n := l.length + 1) (by dsimp only; omega) hroom
    (h.contents.trans (append_nil _).symm) h.length
  dsimp only at hresize hx ⊢
  rw [h.length] at hresize ⊢
  rw [hsmall, hresize]
  by_cases hneg : v.1 < 0
  · -- the value is smaller than all
    rw [if_pos hneg, if_pos hneg]
    obtain ⟨g', hloop, hg'⟩ := upgradeLoop_spec ⟨w, l.length, []⟩ (p := 1) h.encoding hcases henc.le l.length l x [] rfl h.fits
      (by dsimp only; omega)
    rw [append_nil, append_nil] at hloop
    have hwrite := write_cell (n := 0) (l := []) v.1 (packed w l) rfl (hg'.trans (Nat.one_mul w))
    rw [packed_nil, nil_append, nil_append] at hwrite
    rw [hloop, bind_some, if_pos rfl, intsetSet, cellWidth_eq hcases, hwrite, map_some, map_some]
    refine ⟨_, rfl, hcases, hsmall, ?_, ?_, ?_, hroom⟩
    · exact (packed_append w [v.1] l).symm
    · exact pairwise_cons.2 ⟨fun x hx => (hout x hx).1 hneg, h.sorted⟩
    · exact forall_mem_cons.2 ⟨hfits, hwide⟩
  · -- the value is larger than all
    rw [if_neg hneg, if_neg hneg]
    obtain ⟨g', hloop, hg'⟩ := upgradeLoop_spec ⟨w, l.length, []⟩ (p := 0) h.encoding hcases henc.le l.length l
      (x.take (l.length * w - l.length * is.encoding)) (x.drop (l.length * w - l.length * is.encoding)) rfl h.fits
      (by rw [length_take, Nat.add_zero]; dsimp only; omega)
    obtain rfl := length_eq_zero_iff.1 (hg'.trans (Nat.zero_mul _))
    rw [append_assoc, take_append_drop, nil_append] at hloop
    have hwrite := write_cell (w := w) (n := l.length) (l := l) v.1 [] rfl
      (show (x.drop (l.length * w - l.length * is.encoding)).length = w by rw [length_drop]; omega)
    rw [append_nil, append_nil] at hwrite
    rw [hloop, bind_some, if_neg (by decide), intsetSet, cellWidth_eq hcases, hwrite, map_some, map_some]
    refine ⟨_, rfl, hcases, ?_, rfl, ?_, ?_, ?_⟩
    · rw [length_append]
      exact hsmall
    · refine pairwise_append.2 ⟨h.sorted, pairwise_singleton _ _, fun x hx y hy => ?_⟩
      rw [mem_singleton.1 hy]
      exact (hout x hx).2 hneg
    · exact forall_mem_append.2 ⟨hwide, fun x hx => mem_singleton.1 hx ▸ hfits⟩
    · rw [length_append]
      exact hroom

/-- Adding has room: the value is there already, or one more cell, of the width that is then needed, fits the 32 bits of the size. -/
def Intset.HasRoom (is : Intset) (value : ℤ) : Prop :=
  intsetFind is value = some true ∨ (is.length + 1) * max is.encoding (intsetValueEncoding value) < 2 ^ 32

variable {pos : ℕ}

theorem SearchFound.mem_iff {found : Bool} (h : SearchFound l value found pos) : found = true ↔ value ∈ l := by
  constructor
  · intro hfound
    obtain ⟨la, lb, rfl, -⟩ := h.there hfound
    exact mem_append_right _ mem_cons_self
  · intro hmem
    by_contra hfound
    obtain ⟨la, lb, rfl, -, hla, hlb⟩ := h.missing (Bool.eq_false_iff.2 hfound)
    rcases mem_append.1 hmem with hmem | hmem
    · exact lt_irrefl _ (hla value hmem)
    · exact lt_irrefl _ (hlb value hmem)

theorem intsetFind_spec (h : is.Holds l) (v : Long) : intsetFind is v.1 = some (decide (v.1 ∈ l)) := by
  rw [intsetFind]
  by_cases henc : intsetValueEncoding v.1 ≤ is.encoding
  · obtain ⟨found, pos, hsearch, hfound⟩ := intsetSearch_spec h v.1
    rw [if_pos henc, hsearch, map_some, Option.some.injEq]
    exact Bool.eq_iff_iff.2 (hfound.mem_iff.trans decide_eq_true_iff.symm)
  · have hmem : v.1 ∉ l := fun hmem => henc ((valueEncoding_le_iff v h.encoding).2 (h.fits _ hmem))
    rw [if_neg henc, decide_eq_false hmem]

/-- **Room for one more cell**: all from a place on moves on, where something moves at all. -/
theorem intsetMoveTail_back {x : Bytes} (hw : w = 2 ∨ w = 4 ∨ w = 8) (hn : n = (la ++ lb).length) (hsmall : lb.length * w < 2 ^ 32)
    (hx : x.length = w) :
    ∃ old, (if la.length < n then intsetMoveTail ⟨w, n, packed w (la ++ lb) ++ x⟩ la.length (la.length + 1) else some ⟨w, n, packed w (la ++ lb) ++ x⟩) =
      some ⟨w, n, packed w la ++ old ++ packed w lb⟩ ∧ old.length = w := by
  rw [length_append] at hn
  by_cases hlt : la.length < n
  · have hbytes : (n - la.length) * w % 2 ^ 32 = lb.length * w := by rw [hn, Nat.add_sub_cancel_left, Nat.mod_eq_of_lt hsmall]
    obtain ⟨old, hold, hmove⟩ := Memory.move_back (a := packed w la) (m := packed w lb) (d := x) (e := []) (n := lb.length * w)
      (show (la.length + 1) * w = (packed w la).length + x.length by rw [length_packed, hx, Nat.succ_mul]) (length_packed w la).symm (length_packed w lb).symm
    rw [append_nil, append_nil] at hmove
    refine ⟨old, ?_, hold.trans hx⟩
    rw [if_pos hlt, intsetMoveTail, cellWidth_eq hw, hbytes, packed_append, hmove, map_some]
  · obtain rfl : lb = [] := length_eq_zero_iff.1 (by omega)
    rw [if_neg hlt, append_nil, packed_nil]
    exact ⟨x, by rw [append_nil], hx⟩

theorem intsetAdd_spec (h : is.Holds l) (v : Long) (hroom : is.HasRoom v.1) (fill : ℕ → UInt8) :
    ∃ is' l', intsetAdd fill is v.1 = some (is', decide (v.1 ∉ l)) ∧ is'.Holds l' ∧ ∀ x, x ∈ l' ↔ x = v.1 ∨ x ∈ l := by
  rw [Intset.HasRoom, intsetFind_spec h, Option.some.injEq, decide_eq_true_iff] at hroom
  rw [intsetAdd]
  by_cases henc : is.encoding < intsetValueEncoding v.1
  · -- the cells get wider
    have hmem : v.1 ∉ l := fun hmem => absurd ((valueEncoding_le_iff v h.encoding).2 (h.fits _ hmem)) (by omega)
    rw [max_eq_right henc.le, h.length] at hroom
    obtain ⟨is', hadd, h'⟩ := intsetUpgradeAndAdd_spec h v henc (hroom.resolve_left hmem) fill
    rw [if_pos henc, hadd, map_some, decide_eq_true hmem]
    refine ⟨is', _, rfl, h', fun x => ?_⟩
    split
    · exact mem_cons
    · rw [mem_append, mem_singleton, or_comm]
  rw [if_neg henc]
  have hfits := (valueEncoding_le_iff v h.encoding).1 (not_lt.1 henc)
  obtain ⟨found, pos, hsearch, hfound⟩ := intsetSearch_spec h v.1
  rw [hsearch, bind_some]
  cases found with
  | true =>
    have hmem := hfound.mem_iff.1 rfl
    rw [if_pos rfl, decide_eq_false (not_not_intro hmem)]
    exact ⟨is, l, rfl, h, fun x => ⟨Or.inr, fun hx => hx.elim (fun he => he ▸ hmem) id⟩⟩
  | false =>
    obtain ⟨la, lb, rfl, rfl, hla, hlb⟩ := hfound.missing rfl
    have hmem : v.1 ∉ la ++ lb := fun hmem => Bool.false_ne_true (hfound.mem_iff.2 hmem)
    rw [max_eq_left (not_lt.1 henc), h.length] at hroom
    have hroom := hroom.resolve_left hmem
    have hlen : (la ++ v.1 :: lb).length = (la ++ lb).length + 1 := length_append.trans (congrArg Nat.succ length_append.symm)
    have hmul : ((la ++ lb).length + 1) * is.encoding = (la ++ lb).length * is.encoding + is.encoding := Nat.succ_mul _ _
    have hone : (la ++ lb).length + 1 ≤ ((la ++ lb).length + 1) * is.encoding := Nat.le_mul_of_pos_right _ (by have := h.encoding; omega)
    have hsucc : ((la ++ lb).length + 1) % 2 ^ 32 = (la ++ lb).length + 1 := Nat.mod_eq_of_lt (by omega)
    have htail : lb.length * is.encoding ≤ (la ++ lb).length * is.encoding := by
      rw [length_append]
      exact Nat.mul_le_mul_right _ (Nat.le_add_left ..)
    obtain ⟨x, hresize, hx⟩ := intsetResize_spec (b := []) fill is (by omega) hroom (h.contents.trans (append_nil _).symm) h.length
    obtain ⟨old, hmove, hold⟩ := intsetMoveTail_back h.encoding (rfl : (la ++ lb).length = _) (by omega) (show x.length = is.encoding by omega)
    have hwrite := write_cell (l := la) v.1 (packed is.encoding lb) rfl hold
    rw [if_neg (Bool.false_ne_true), decide_eq_true hmem]
    dsimp only
    rw [h.length, hsucc, hresize, hmove, bind_some, intsetSet, cellWidth_eq h.encoding, hwrite, map_some, map_some]
    refine ⟨_, la ++ v.1 :: lb, rfl, ⟨h.encoding, ?_, ?_, ?_, ?_, ?_⟩, fun x => ?_⟩
    · exact hsucc.trans hlen.symm
    · dsimp only
      rw [← packed_append, append_assoc, singleton_append]
    · obtain ⟨hsorteda, hsortedb, hbetween⟩ := pairwise_append.1 h.sorted
      refine pairwise_append.2 ⟨hsorteda, pairwise_cons.2 ⟨hlb, hsortedb⟩, fun x hx => forall_mem_cons.2 ⟨hla x hx, hbetween x hx⟩⟩
    · intro x hx
      rcases mem_append.1 hx with hx | hx
      · exact h.fits x (mem_append_left _ hx)
      · exact forall_mem_cons.2 ⟨hfits, fun y hy => h.fits y (mem_append_right _ hy)⟩ x hx
    · rw [hlen]
      exact hroom
    · rw [mem_append, mem_cons, mem_append]
      exact or_left_comm

/-- **A cell less**: all behind it moves to the front, where something moves at all. -/
theorem intsetMoveTail_front (hw : w = 2 ∨ w = 4 ∨ w = 8) (hn : n = (la ++ value :: lb).length) (hsmall : lb.length * w < 2 ^ 32) :
    ∃ old, (if la.length < n - 1 then intsetMoveTail ⟨w, n, packed w (la ++ value :: lb)⟩ (la.length + 1) la.length
        else some ⟨w, n, packed w (la ++ value :: lb)⟩) = some ⟨w, n, packed w (la ++ lb) ++ old⟩ := by
  rw [length_append, length_cons] at hn
  by_cases hlt : la.length < n - 1
  · have hbytes : (n - (la.length + 1)) * w % 2 ^ 32 = lb.length * w := by
      rw [show n - (la.length + 1) = lb.length by omega, Nat.mod_eq_of_lt hsmall]
    obtain ⟨old, -, hmove⟩ := Memory.move_front (a := packed w la) (d := signedBytes w value) (m := packed w lb) (e := []) (n := lb.length * w)
      (length_packed w la).symm (show (la.length + 1) * w = (packed w la ++ signedBytes w value).length by
        rw [length_append, length_packed, length_signedBytes, Nat.succ_mul]) (length_packed w lb).symm
    rw [append_nil, append_nil, append_assoc] at hmove
    refine ⟨old, ?_⟩
    rw [if_pos hlt, intsetMoveTail, cellWidth_eq hw, hbytes, packed_append, packed_cons, hmove, map_some, packed_append]
  · obtain rfl : lb = [] := length_eq_zero_iff.1 (by omega)
    refine ⟨signedBytes w value, ?_⟩
    rw [if_neg hlt, append_nil, packed_append, packed_cons, packed_nil, append_nil]

theorem intsetRemove_spec (h : is.Holds l) (v : Long) (fill : ℕ → UInt8) :
    ∃ is' l', intsetRemove fill is v.1 = some (is', decide (v.1 ∈ l)) ∧ is'.Holds l' ∧ ∀ x, x ∈ l' ↔ x ≠ v.1 ∧ x ∈ l := by
  rw [intsetRemove]
  by_cases henc : intsetValueEncoding v.1 ≤ is.encoding
  · rw [if_pos henc]
    obtain ⟨found, pos, hsearch, hfound⟩ := intsetSearch_spec h v.1
    rw [hsearch, bind_some]
    cases found with
    | true =>
      have hmem := hfound.mem_iff.1 rfl
      obtain ⟨la, lb, rfl, rfl⟩ := hfound.there rfl
      have hlen : (la ++ v.1 :: lb).length = (la ++ lb).length + 1 := length_append.trans (congrArg Nat.succ length_append.symm)
      have hsmall := h.small
      rw [hlen, Nat.succ_mul] at hsmall
      have htail : lb.length * is.encoding ≤ (la ++ lb).length * is.encoding := by
        rw [length_append]
        exact Nat.mul_le_mul_right _ (Nat.le_add_left ..)
      have hself : is = ⟨is.encoding, is.length, packed is.encoding (la ++ v.1 :: lb)⟩ := by rw [← h.contents]
      obtain ⟨old, hmove⟩ := intsetMoveTail_front h.encoding h.length (by omega)
      obtain ⟨x, hresize, hx⟩ := intsetResize_spec fill ⟨is.encoding, is.length, packed is.encoding (la ++ lb) ++ old⟩ (n := (la ++ lb).length)
        (Nat.le_refl _) (by dsimp only; omega) rfl rfl
      rw [Nat.sub_self] at hx
      obtain rfl := length_eq_zero_iff.1 hx
      rw [← hself] at hmove
      rw [if_pos rfl, decide_eq_true hmem]
      dsimp only
      rw [hmove, map_some, h.length, hlen, Nat.add_sub_cancel, ← hlen, ← h.length, hresize, append_nil]
      obtain ⟨hsorteda, hsortedb, hbetween⟩ := pairwise_append.1 h.sorted
      have hsortedb := pairwise_cons.1 hsortedb
      refine ⟨_, la ++ lb, rfl, ⟨h.encoding, rfl, rfl, ?_, fun x hx => ?_, ?_⟩, fun x => ?_⟩
      · exact pairwise_append.2 ⟨hsorteda, hsortedb.2, fun x hx y hy => hbetween x hx y (mem_cons_of_mem _ hy)⟩
      · rcases mem_append.1 hx with hx | hx
        · exact h.fits x (mem_append_left _ hx)
        · exact h.fits x (mem_append_right _ (mem_cons_of_mem _ hx))
      · dsimp only
        omega
      · rw [mem_append, mem_append, mem_cons]
        constructor
        · rintro (hx | hx)
          · exact ⟨(hbetween x hx v.1 mem_cons_self).ne, Or.inl hx⟩
          · exact ⟨(hsortedb.1 x hx).ne', Or.inr (Or.inr hx)⟩
        · rintro ⟨hne, hx | hx | hx⟩
          · exact Or.inl hx
          · exact absurd hx hne
          · exact Or.inr hx
    | false =>
      have hmem : v.1 ∉ l := fun hmem => Bool.false_ne_true (hfound.mem_iff.2 hmem)
      rw [if_neg Bool.false_ne_true, decide_eq_false hmem]
      exact ⟨is, l, rfl, h, fun x => ⟨fun hx => ⟨fun he => hmem (he ▸ hx), hx⟩, And.right⟩⟩
  · have hmem : v.1 ∉ l := fun hmem => henc ((valueEncoding_le_iff v h.encoding).2 (h.fits _ hmem))
    rw [if_neg henc, decide_eq_false hmem]
    exact ⟨is, l, rfl, h, fun x => ⟨fun hx => ⟨fun he => hmem (he ▸ hx), hx⟩, And.right⟩⟩

theorem intsetSet_none (is : Intset) (hw : is.encoding = 2 ∨ is.encoding = 4 ∨ is.encoding = 8) (hpos : is.contents.length < pos * is.encoding + is.encoding) :
    intsetSet is pos value = none := by
  rw [intsetSet, cellWidth_eq hw, Memory.write, length_signedBytes, if_neg (not_le.2 hpos), map_none]

theorem upgradeLoop_none (is : Intset) (hw : is.encoding = 2 ∨ is.encoding = 4 ∨ is.encoding = 8) (hsize : is.contents.length < n * is.encoding) :
    upgradeLoop p w n is = none := by
  cases n with
  | zero => omega
  | succ n =>
    have hcell : (n + 1) * is.encoding ≤ (n + p) * is.encoding + is.encoding := by
      rw [← Nat.succ_mul]
      exact Nat.mul_le_mul_right _ (by omega)
    rw [upgradeLoop]
    cases intsetGetEncoded is n w with
    | none => rfl
    | some v => rw [bind_some, intsetSet_none is hw (by omega), bind_none]

theorem intsetAdd_none (h : is.Holds l) (v : Long) (hroom : ¬ is.HasRoom v.1) (fill : ℕ → UInt8) : intsetAdd fill is v.1 = none := by
  rw [Intset.HasRoom, intsetFind_spec h, Option.some.injEq, decide_eq_true_iff, not_or, not_lt, h.length] at hroom
  obtain ⟨hmem, hfull⟩ := hroom
  have hsmall := h.small
  have hone : l.length * 2 ≤ l.length * is.encoding := Nat.mul_le_mul_left _ (by have := h.encoding; omega)
  have hsucc : (l.length + 1) % 2 ^ 32 = l.length + 1 := Nat.mod_eq_of_lt (by omega)
  rw [intsetAdd]
  by_cases henc : is.encoding < intsetValueEncoding v.1
  · rw [max_eq_right henc.le] at hfull
    have hcases := valueEncoding_cases v.1
    rw [if_pos henc, intsetUpgradeAndAdd]
    generalize intsetValueEncoding v.1 = w at henc hfull hcases ⊢
    rw [Nat.succ_mul] at hfull
    have hshort : (Memory.realloc fill is.contents ((l.length + 1) * w % 2 ^ 32)).length < l.length * w := by
      rw [Memory.realloc_length, Nat.succ_mul]
      omega
    have hloop := fun p => upgradeLoop_none (intsetResize fill ⟨w, l.length, is.contents⟩ (l.length + 1)) (w := is.encoding) (p := p) hcases hshort
    rw [h.length, hsucc]
    dsimp only [intsetResize] at hloop ⊢
    rw [hloop, bind_none, map_none]
  · rw [max_eq_left (not_lt.1 henc)] at hfull
    obtain ⟨found, pos, hsearch, hfound⟩ := intsetSearch_spec h v.1
    obtain rfl : found = false := Bool.eq_false_iff.2 fun hf => hmem (hfound.mem_iff.1 hf)
    obtain ⟨la, lb, rfl, rfl, -, -⟩ := hfound.missing rfl
    -- the size of the memory wraps to 0
    have hzero : ((la ++ lb).length + 1) * is.encoding % 2 ^ 32 = 0 := by
      rcases h.encoding with henc | henc | henc <;> rw [henc] at hfull hsmall ⊢ <;> omega
    have hempty : intsetResize fill is ((la ++ lb).length + 1) = ⟨is.encoding, (la ++ lb).length, []⟩ := by
      rw [intsetResize, hzero, length_eq_zero_iff.1 (Memory.realloc_length fill is.contents 0), h.length]
    rw [if_neg henc, hsearch, bind_some, if_neg Bool.false_ne_true]
    dsimp only
    rw [h.length, hsucc, hempty]
    by_cases hlt : la.length < (la ++ lb).length
    · have htail : (la ++ lb).length - la.length = lb.length := by rw [length_append, Nat.add_sub_cancel_left]
      have hle : lb.length * is.encoding ≤ (la ++ lb).length * is.encoding := Nat.mul_le_mul_right _ (by omega)
      have hbytes : 0 < lb.length * is.encoding := Nat.mul_pos (by omega) (by have := h.encoding; omega)
      rw [if_pos hlt, intsetMoveTail, cellWidth_eq h.encoding, htail, Nat.mod_eq_of_lt (by omega), Memory.move, Memory.read,
        if_neg (by rw [length_nil]; omega), bind_none, map_none, bind_none]
    · rw [if_neg hlt, bind_some, intsetSet_none ⟨is.encoding, (la ++ lb).length, []⟩ h.encoding, map_none]
      have := h.encoding
      rw [length_nil]
      dsimp only
      omega

end KVStores.Redis
