import KVStores.Lib.Rearrange

/-!
# Partial sorting

`pqsort.c`: the quicksort that leaves out the parts of a vector which do not meet a range. The vector is a sequence, and a pointer into it
is the place of an element; only the range, and the ends of the part that is compared with it, are addresses of bytes, from the vector on.

* `pqsort_settles`: **every place of the range is arranged**, and the elements were moved about in the vector.
-/

namespace KVStores.Redis.Sort

variable {α : Type}

/-! ## Swaps -/

def swap (v : ℕ → α) (a b : ℕ) : ℕ → α := fun k => v (Equiv.swap a b k)

/-- `vecswap` of `n` elements. -/
@[grind =] def vecswap : ℕ → ℕ → ℕ → (ℕ → α) → ℕ → α
  | 0, _, _, v => v
  | n + 1, a, b, v => vecswap n (a + 1) (b + 1) (swap v a b)

variable (cmp : α → α → ℤ)

def med3 (v : ℕ → α) (a b c : ℕ) : ℕ :=
  if cmp (v a) (v b) < 0 then if cmp (v b) (v c) < 0 then b else if cmp (v a) (v c) < 0 then c else a
  else if 0 < cmp (v b) (v c) then b else if cmp (v a) (v c) < 0 then a else c

/-! ## Insertion sort -/

/-- The inner loop of the insertion sort, from `pl` places behind `a` down. -/
@[grind =] def sink (a : ℕ) : ℕ → (ℕ → α) → ℕ → α
  | 0, v => v
  | pl + 1, v => if 0 < cmp (v (a + pl)) (v (a + (pl + 1))) then sink a pl (swap v (a + (pl + 1)) (a + pl)) else v

/-- The outer one, for the elements from `pm` places behind `a` on. -/
@[grind =] def insertionSort (a : ℕ) : ℕ → ℕ → (ℕ → α) → ℕ → α
  | 0, _, v => v
  | n + 1, pm, v => insertionSort a n (pm + 1) (sink cmp a pm v)

/-! ## Partition -/

/-- The place of the pivot among `n` elements. -/
def pivot (v : ℕ → α) (a n : ℕ) : ℕ :=
  if 7 < n then
    if 40 < n then
      med3 cmp v (med3 cmp v a (a + n / 8) (a + 2 * (n / 8))) (med3 cmp v (a + n / 2 - n / 8) (a + n / 2) (a + n / 2 + n / 8))
        (med3 cmp v (a + (n - 1) - 2 * (n / 8)) (a + (n - 1) - n / 8) (a + (n - 1)))
    else med3 cmp v a (a + n / 2) (a + (n - 1))
  else a + n / 2

structure Cut (α : Type) where
  v : ℕ → α
  pa : ℕ
  pb : ℕ
  pc : ℕ
  pd : ℕ
  swapCnt : Bool

def Cut.equalUp (s : Cut α) : Cut α := { s with v := swap s.v s.pa s.pb, pa := s.pa + 1, pb := s.pb + 1, swapCnt := true }

def Cut.equalDown (s : Cut α) : Cut α := { s with v := swap s.v s.pc s.pd, pc := s.pc - 1, pd := s.pd - 1, swapCnt := true }

def Cut.exchange (s : Cut α) : Cut α := { s with v := swap s.v s.pb s.pc, pb := s.pb + 1, pc := s.pc - 1, swapCnt := true }

/-- The first inner loop, while there are elements from `pb` to `pc`. -/
@[grind =] def scanUp (a : ℕ) : ℕ → Cut α → Cut α
  | 0, s => s
  | left + 1, s =>
    if cmp (s.v s.pb) (s.v a) ≤ 0 then
      if cmp (s.v s.pb) (s.v a) = 0 then scanUp a left s.equalUp else scanUp a left { s with pb := s.pb + 1 }
    else s

@[grind =] def scanDown (a : ℕ) : ℕ → Cut α → Cut α
  | 0, s => s
  | left + 1, s =>
    if 0 ≤ cmp (s.v s.pc) (s.v a) then
      if cmp (s.v s.pc) (s.v a) = 0 then scanDown a left s.equalDown else scanDown a left { s with pc := s.pc - 1 }
    else s

def scan (a : ℕ) (s : Cut α) : Cut α :=
  scanDown cmp a ((scanUp cmp a (s.pc + 1 - s.pb) s).pc + 1 - (scanUp cmp a (s.pc + 1 - s.pb) s).pb) (scanUp cmp a (s.pc + 1 - s.pb) s)

@[grind =] def partitionLoop (a : ℕ) : ℕ → Cut α → Cut α
  | 0, s => s
  | fuel + 1, s => if (scan cmp a s).pc < (scan cmp a s).pb then scan cmp a s else partitionLoop a fuel (scan cmp a s).exchange

/-- The partition of `n` elements around a pivot, which is put in front first. -/
def partition (v : ℕ → α) (a n : ℕ) : Cut α :=
  partitionLoop cmp a n ⟨swap v a (pivot cmp v a n), a + 1, a + 1, a + (n - 1), a + (n - 1), false⟩

/-- The elements that equal the pivot are brought to the middle. -/
def gather (a n : ℕ) (s : Cut α) : ℕ → α :=
  vecswap (min (s.pd - s.pc) (a + n - s.pd - 1)) s.pb (a + n - min (s.pd - s.pc) (a + n - s.pd - 1))
    (vecswap (min (s.pa - a) (s.pb - s.pa)) a (s.pb - min (s.pa - a) (s.pb - s.pa)) s.v)

/-! ## Recursion -/

/-- Whether the part of `r` elements from `a` on is sorted: there is more than one, and it is not on one side of the range. -/
def meetsRange (es : ℕ) (lrange rrange : ℤ) (a r : ℕ) : Prop :=
  1 < r ∧ ¬ (lrange < a * es ∧ rrange < a * es ∨ a * es + (r * es - 1) < lrange ∧ a * es + (r * es - 1) < rrange)

instance (es : ℕ) (lrange rrange : ℤ) (a r : ℕ) : Decidable (meetsRange es lrange rrange a r) := by
  unfold meetsRange
  infer_instance

/-- `_pqsort`, with fuel: what was a jump is a call. -/
@[grind =] def _pqsort (es : ℕ) (lrange rrange : ℤ) : ℕ → ℕ → ℕ → (ℕ → α) → ℕ → α
  | 0, _, _, v => v
  | fuel + 1, a, n, v =>
    if n < 7 then insertionSort cmp a (n - 1) 1 v
    else
      let s := partition cmp v a n
      if s.swapCnt = false then insertionSort cmp a (n - 1) 1 s.v
      else
        let v := gather a n s
        let v := if meetsRange es lrange rrange a (s.pb - s.pa) then _pqsort es lrange rrange fuel a (s.pb - s.pa) v else v
        if meetsRange es lrange rrange (a + n - (s.pd - s.pc)) (s.pd - s.pc) then
          _pqsort es lrange rrange fuel (a + n - (s.pd - s.pc)) (s.pd - s.pc) v
        else v

def address (offset : ℤ) : ℤ := offset.bmod (2 ^ 64)

def pqsort (v : ℕ → α) (n es : ℕ) (lrange rrange : ℤ) : ℕ → α :=
  _pqsort cmp es (address (lrange * es)) (address ((rrange + 1) * es - 1)) n 0 n v

/-! ## Comparisons -/

section Spec

variable {cmp} {κ : Type*} [LinearOrder κ] {key : α → κ} {v v' : ℕ → α} {a b n e pl pm top : ℕ}

structure Orders (cmp : α → α → ℤ) (key : α → κ) (v : ℕ → α) : Prop where
  lt : ∀ i j, cmp (v i) (v j) < 0 ↔ key (v i) < key (v j)
  gt : ∀ i j, 0 < cmp (v i) (v j) ↔ key (v j) < key (v i)

namespace Orders

theorem le (h : Orders cmp key v) (i j : ℕ) : cmp (v i) (v j) ≤ 0 ↔ key (v i) ≤ key (v j) := by
  rw [← not_lt, h.gt, not_lt]

theorem ge (h : Orders cmp key v) (i j : ℕ) : 0 ≤ cmp (v i) (v j) ↔ key (v j) ≤ key (v i) := by
  rw [← not_lt, h.lt, not_lt]

theorem eq (h : Orders cmp key v) (i j : ℕ) : cmp (v i) (v j) = 0 ↔ key (v i) = key (v j) := by
  rw [le_antisymm_iff, le_antisymm_iff, h.le, h.ge]

theorem rearranged (h : Orders cmp key v) {lo hi : ℕ} (hr : Rearranges lo hi v v') : Orders cmp key v' := by
  obtain ⟨σ, -, rfl⟩ := hr
  exact ⟨fun i j => h.lt (σ i) (σ j), fun i j => h.gt (σ i) (σ j)⟩

end Orders

theorem swap_at (v : ℕ → α) (a b k : ℕ) : swap v a b k = if k = a then v b else if k = b then v a else v k := by
  rw [swap, Equiv.swap_apply_def]
  split_ifs <;> rfl

theorem swap_rearranges {lo hi : ℕ} (v : ℕ → α) (ha : lo ≤ a ∧ a < hi) (hb : lo ≤ b ∧ b < hi) : Rearranges lo hi v (swap v a b) :=
  Rearranges.swap ha hb

theorem vecswap_at : ∀ (n a b : ℕ) (v : ℕ → α), a + n ≤ b → ∀ k, vecswap n a b v k =
    if a ≤ k ∧ k < a + n then v (b + (k - a)) else if b ≤ k ∧ k < b + n then v (a + (k - b)) else v k := by
  intro n
  induction n with
  | zero =>
    intro a b v _ k
    rw [vecswap, if_neg (by omega), if_neg (by omega)]
  | succ n ih =>
    intro a b v hab k
    rw [vecswap, ih (a + 1) (b + 1) (swap v a b) (by omega) k]
    by_cases h1 : a + 1 ≤ k ∧ k < a + 1 + n
    · rw [if_pos h1, if_pos (by omega), swap_at, if_neg (by omega), if_neg (by omega), show b + 1 + (k - (a + 1)) = b + (k - a) by omega]
    rw [if_neg h1]
    by_cases h2 : b + 1 ≤ k ∧ k < b + 1 + n
    · rw [if_pos h2, if_neg (by omega), if_pos (by omega), swap_at, if_neg (by omega), if_neg (by omega),
        show a + 1 + (k - (b + 1)) = a + (k - b) by omega]
    rw [if_neg h2, swap_at]
    by_cases h3 : k = a
    · rw [if_pos h3, if_pos (by omega), show b + (k - a) = b by omega]
    rw [if_neg h3]
    by_cases h4 : k = b
    · rw [if_pos h4, if_neg (by omega), if_pos (by omega), show a + (k - b) = a by omega]
    · rw [if_neg h4, if_neg (by omega), if_neg (by omega)]

theorem vecswap_rearranges {lo hi : ℕ} : ∀ (n a b : ℕ) (v : ℕ → α), lo ≤ a → a ≤ b → b + n ≤ hi → Rearranges lo hi v (vecswap n a b v) := by
  intro n
  induction n with
  | zero => exact fun a b v _ _ _ => Rearranges.refl lo hi v
  | succ n ih =>
    intro a b v hlo hab hhi
    exact (swap_rearranges v (by omega) (by omega)).trans (ih (a + 1) (b + 1) _ (by omega) (by omega) (by omega))

/-! ## Small vectors -/

def SortedOn (key : α → κ) (v : ℕ → α) (lo hi : ℕ) : Prop := ∀ i j, lo ≤ i → i ≤ j → j < hi → key (v i) ≤ key (v j)

/-- A segment that is in order but for one element, which is too far behind. -/
structure SortedBut (key : α → κ) (v : ℕ → α) (lo hi k : ℕ) : Prop where
  others : ∀ i j, lo ≤ i → i ≤ j → j < hi → i ≠ k → j ≠ k → key (v i) ≤ key (v j)
  behind : ∀ j, k < j → j < hi → key (v k) ≤ key (v j)

theorem SortedBut.swap (h : SortedBut key v a top (a + (pl + 1))) (hlt : key (v (a + (pl + 1))) < key (v (a + pl))) :
    SortedBut key (swap v (a + (pl + 1)) (a + pl)) a top (a + pl) := by
  constructor
  · intro i j h1 h2 h3 hi hj
    rw [swap_at, swap_at, if_neg hi, if_neg hj]
    by_cases hi' : i = a + (pl + 1)
    · rw [if_pos hi']
      by_cases hj' : j = a + (pl + 1)
      · rw [if_pos hj']
      · rw [if_neg hj']
        exact h.others (a + pl) j (by omega) (by omega) h3 (by omega) hj'
    · rw [if_neg hi']
      by_cases hj' : j = a + (pl + 1)
      · rw [if_pos hj']
        exact h.others i (a + pl) h1 (by omega) (by omega) hi' (by omega)
      · rw [if_neg hj']
        exact h.others i j h1 h2 h3 hi' hj'
  · intro j h1 h2
    rw [swap_at, swap_at, if_neg (by omega), if_pos rfl, if_neg (show ¬ j = a + pl by omega)]
    by_cases hj' : j = a + (pl + 1)
    · rw [if_pos hj']
      exact hlt.le
    · rw [if_neg hj']
      exact h.behind j (by omega) h2

theorem SortedBut.sorted (h : SortedBut key v a top (a + (pl + 1))) (hle : key (v (a + pl)) ≤ key (v (a + (pl + 1)))) : SortedOn key v a top := by
  intro i j h1 h2 h3
  by_cases hi : i = a + (pl + 1)
  · rcases Nat.eq_or_lt_of_le h2 with rfl | hlt
    · exact le_rfl
    · rw [hi]
      exact h.behind j (by omega) h3
  · by_cases hj : j = a + (pl + 1)
    · rw [hj]
      exact (h.others i (a + pl) h1 (by omega) (by omega) hi (by omega)).trans hle
    · exact h.others i j h1 h2 h3 hi hj

theorem sink_spec : ∀ (pl : ℕ) {v : ℕ → α}, Orders cmp key v → a + pl < top → SortedBut key v a top (a + pl) →
    SortedOn key (sink cmp a pl v) a top ∧ Rearranges a top v (sink cmp a pl v) := by
  intro pl
  induction pl with
  | zero =>
    intro v _ _ h
    refine ⟨fun i j h1 h2 h3 => ?_, Rearranges.refl a top v⟩
    rcases Nat.eq_or_lt_of_le h2 with rfl | hlt
    · exact le_rfl
    · by_cases hi : i = a
      · rw [hi]
        exact h.behind j (by omega) h3
      · exact h.others i j h1 h2 h3 hi (by omega)
  | succ pl ih =>
    intro v ho htop h
    rw [sink]
    by_cases hcmp : 0 < cmp (v (a + pl)) (v (a + (pl + 1)))
    · rw [if_pos hcmp]
      have hr : Rearranges a top v (swap v (a + (pl + 1)) (a + pl)) := swap_rearranges v (by omega) (by omega)
      obtain ⟨h1, h2⟩ := ih (ho.rearranged hr) (by omega) (h.swap ((ho.gt _ _).1 hcmp))
      exact ⟨h1, hr.trans h2⟩
    · rw [if_neg hcmp]
      exact ⟨h.sorted (not_lt.1 fun hlt => hcmp ((ho.gt _ _).2 hlt)), Rearranges.refl a top v⟩

/-- **The insertion sort.** -/
theorem insertionSort_spec : ∀ (n : ℕ) {pm : ℕ} {v : ℕ → α}, Orders cmp key v → SortedOn key v a (a + pm) →
    SortedOn key (insertionSort cmp a n pm v) a (a + (pm + n)) ∧ Rearranges a (a + (pm + n)) v (insertionSort cmp a n pm v) := by
  intro n
  induction n with
  | zero => exact fun _ h => ⟨h, Rearranges.refl _ _ _⟩
  | succ n ih =>
    intro pm v ho h
    have hbut : SortedBut key v a (a + (pm + 1)) (a + pm) :=
      ⟨fun i j h1 h2 h3 _ hj => h i j h1 h2 (by omega), fun j h1 h2 => by omega⟩
    obtain ⟨h1, h2⟩ := sink_spec pm ho (by omega) hbut
    obtain ⟨h3, h4⟩ := ih (ho.rearranged h2) h1
    rw [insertionSort, show pm + (n + 1) = pm + 1 + n by omega]
    exact ⟨h3, (h2.mono le_rfl (by omega)).trans h4⟩

/-! ## The partition -/

theorem med3_mem (cmp : α → α → ℤ) (v : ℕ → α) (a b c : ℕ) : med3 cmp v a b c = a ∨ med3 cmp v a b c = b ∨ med3 cmp v a b c = c := by
  unfold med3
  split_ifs <;> simp

theorem pivot_bounds (cmp : α → α → ℤ) (v : ℕ → α) (a : ℕ) (hn : 0 < n) : a ≤ pivot cmp v a n ∧ pivot cmp v a n < a + n := by
  unfold pivot
  split_ifs with h1 h2
  · obtain h | h | h := med3_mem cmp v (med3 cmp v a (a + n / 8) (a + 2 * (n / 8)))
      (med3 cmp v (a + n / 2 - n / 8) (a + n / 2) (a + n / 2 + n / 8)) (med3 cmp v (a + (n - 1) - 2 * (n / 8)) (a + (n - 1) - n / 8) (a + (n - 1)))
    · obtain h' | h' | h' := med3_mem cmp v a (a + n / 8) (a + 2 * (n / 8)) <;> omega
    · obtain h' | h' | h' := med3_mem cmp v (a + n / 2 - n / 8) (a + n / 2) (a + n / 2 + n / 8) <;> omega
    · obtain h' | h' | h' := med3_mem cmp v (a + (n - 1) - 2 * (n / 8)) (a + (n - 1) - n / 8) (a + (n - 1)) <;> omega
  · obtain h | h | h := med3_mem cmp v a (a + n / 2) (a + (n - 1)) <;> omega
  · omega

/-- How far the partition of the segment from `a` to `e` is: elements that equal the pivot, less ones, those that were not looked at,
greater ones, and again elements that equal it. -/
structure Zones (key : α → κ) (a e : ℕ) (s : Cut α) : Prop where
  pa_pos : a < s.pa
  pa_le : s.pa ≤ s.pb
  pb_le : s.pb ≤ s.pc + 1
  pc_le : s.pc ≤ s.pd
  pd_le : s.pd ≤ e
  front : ∀ i, a ≤ i → i < s.pa → key (s.v i) = key (s.v a)
  low : ∀ i, s.pa ≤ i → i < s.pb → key (s.v i) < key (s.v a)
  high : ∀ i, s.pc < i → i ≤ s.pd → key (s.v a) < key (s.v i)
  back : ∀ i, s.pd < i → i ≤ e → key (s.v i) = key (s.v a)

namespace Zones

variable {s : Cut α}

theorem below (h : Zones key a e s) (hlt : key (s.v s.pb) < key (s.v a)) (hle : s.pb ≤ s.pc) : Zones key a e { s with pb := s.pb + 1 } where
  pa_pos := h.pa_pos
  pa_le := Nat.le_succ_of_le h.pa_le
  pb_le := Nat.succ_le_succ hle
  pc_le := h.pc_le
  pd_le := h.pd_le
  front := h.front
  low := by
    intro i h1 h2
    rcases Nat.eq_or_lt_of_le (Nat.le_of_lt_succ h2) with rfl | hi
    · exact hlt
    · exact h.low i h1 hi
  high := h.high
  back := h.back

theorem above (h : Zones key a e s) (hlt : key (s.v a) < key (s.v s.pc)) (hle : s.pb ≤ s.pc) : Zones key a e { s with pc := s.pc - 1 } where
  pa_pos := h.pa_pos
  pa_le := h.pa_le
  pb_le := by
    change s.pb ≤ s.pc - 1 + 1
    omega
  pc_le := (Nat.sub_le s.pc 1).trans h.pc_le
  pd_le := h.pd_le
  front := h.front
  low := h.low
  high := by
    intro i h1 h2
    change s.pc - 1 < i at h1
    by_cases hi : i = s.pc
    · rw [hi]
      exact hlt
    · exact h.high i (by omega) h2
  back := h.back

theorem equalUp (h : Zones key a e s) (heq : key (s.v s.pb) = key (s.v a)) (hle : s.pb ≤ s.pc) : Zones key a e s.equalUp := by
  obtain ⟨h1, h2, h3, h4, h5, hfront, hlow, hhigh, hback⟩ := h
  have hpivot : swap s.v s.pa s.pb a = s.v a := by rw [swap_at, if_neg (by omega), if_neg (by omega)]
  constructor
  · exact Nat.lt_succ_of_lt h1
  · exact Nat.succ_le_succ h2
  · exact Nat.succ_le_succ hle
  · exact h4
  · exact h5
  · intro i hi1 hi2
    change key (swap s.v s.pa s.pb i) = key (swap s.v s.pa s.pb a)
    rw [hpivot, swap_at]
    change i < s.pa + 1 at hi2
    by_cases hi : i = s.pa
    · rw [if_pos hi, heq]
    · rw [if_neg hi, if_neg (by omega)]
      exact hfront i hi1 (by omega)
  · intro i hi1 hi2
    change key (swap s.v s.pa s.pb i) < key (swap s.v s.pa s.pb a)
    rw [hpivot, swap_at]
    change s.pa + 1 ≤ i at hi1
    change i < s.pb + 1 at hi2
    rw [if_neg (by omega)]
    by_cases hi : i = s.pb
    · rw [if_pos hi]
      exact hlow s.pa le_rfl (by omega)
    · rw [if_neg hi]
      exact hlow i (by omega) (by omega)
  · intro i hi1 hi2
    change key (swap s.v s.pa s.pb a) < key (swap s.v s.pa s.pb i)
    change s.pc < i at hi1
    rw [hpivot, swap_at, if_neg (by omega), if_neg (by omega)]
    exact hhigh i hi1 hi2
  · intro i hi1 hi2
    change key (swap s.v s.pa s.pb i) = key (swap s.v s.pa s.pb a)
    change s.pd < i at hi1
    rw [hpivot, swap_at, if_neg (by omega), if_neg (by omega)]
    exact hback i hi1 hi2

theorem equalDown (h : Zones key a e s) (heq : key (s.v s.pc) = key (s.v a)) (hle : s.pb ≤ s.pc) : Zones key a e s.equalDown := by
  obtain ⟨h1, h2, h3, h4, h5, hfront, hlow, hhigh, hback⟩ := h
  have hpivot : swap s.v s.pc s.pd a = s.v a := by rw [swap_at, if_neg (by omega), if_neg (by omega)]
  constructor
  · exact h1
  · exact h2
  · change s.pb ≤ s.pc - 1 + 1
    omega
  · exact Nat.sub_le_sub_right h4 1
  · exact (Nat.sub_le s.pd 1).trans h5
  · intro i hi1 hi2
    change key (swap s.v s.pc s.pd i) = key (swap s.v s.pc s.pd a)
    change i < s.pa at hi2
    rw [hpivot, swap_at, if_neg (by omega), if_neg (by omega)]
    exact hfront i hi1 hi2
  · intro i hi1 hi2
    change key (swap s.v s.pc s.pd i) < key (swap s.v s.pc s.pd a)
    change i < s.pb at hi2
    rw [hpivot, swap_at, if_neg (by omega), if_neg (by omega)]
    exact hlow i hi1 hi2
  · intro i hi1 hi2
    change key (swap s.v s.pc s.pd a) < key (swap s.v s.pc s.pd i)
    rw [hpivot, swap_at]
    change s.pc - 1 < i at hi1
    change i ≤ s.pd - 1 at hi2
    by_cases hi : i = s.pc
    · rw [if_pos hi]
      exact hhigh s.pd (by omega) le_rfl
    · rw [if_neg hi, if_neg (by omega)]
      exact hhigh i (by omega) (by omega)
  · intro i hi1 hi2
    change key (swap s.v s.pc s.pd i) = key (swap s.v s.pc s.pd a)
    rw [hpivot, swap_at]
    change s.pd - 1 < i at hi1
    by_cases hi : i = s.pd
    · by_cases hc : i = s.pc
      · rw [if_pos hc, ← hi, hc, heq]
      · rw [if_neg hc, if_pos hi, heq]
    · rw [if_neg (by omega), if_neg hi]
      exact hback i (by omega) hi2

theorem exchange (h : Zones key a e s) (hpb : key (s.v a) < key (s.v s.pb)) (hpc : key (s.v s.pc) < key (s.v a)) (hle : s.pb ≤ s.pc) :
    Zones key a e s.exchange := by
  obtain ⟨h1, h2, h3, h4, h5, hfront, hlow, hhigh, hback⟩ := h
  have hne : s.pb ≠ s.pc := by
    intro heq
    rw [heq] at hpb
    exact lt_asymm hpb hpc
  have hpivot : swap s.v s.pb s.pc a = s.v a := by rw [swap_at, if_neg (by omega), if_neg (by omega)]
  constructor
  · exact h1
  · exact Nat.le_succ_of_le h2
  · change s.pb + 1 ≤ s.pc - 1 + 1
    omega
  · exact (Nat.sub_le s.pc 1).trans h4
  · exact h5
  · intro i hi1 hi2
    change key (swap s.v s.pb s.pc i) = key (swap s.v s.pb s.pc a)
    change i < s.pa at hi2
    rw [hpivot, swap_at, if_neg (by omega), if_neg (by omega)]
    exact hfront i hi1 hi2
  · intro i hi1 hi2
    change key (swap s.v s.pb s.pc i) < key (swap s.v s.pb s.pc a)
    change i < s.pb + 1 at hi2
    rw [hpivot, swap_at]
    by_cases hi : i = s.pb
    · rw [if_pos hi]
      exact hpc
    · rw [if_neg hi, if_neg (by omega)]
      exact hlow i hi1 (by omega)
  · intro i hi1 hi2
    change key (swap s.v s.pb s.pc a) < key (swap s.v s.pb s.pc i)
    change s.pc - 1 < i at hi1
    rw [hpivot, swap_at, if_neg (by omega)]
    by_cases hi : i = s.pc
    · rw [if_pos hi]
      exact hpb
    · rw [if_neg hi]
      exact hhigh i (by omega) hi2
  · intro i hi1 hi2
    change key (swap s.v s.pb s.pc i) = key (swap s.v s.pb s.pc a)
    change s.pd < i at hi1
    rw [hpivot, swap_at, if_neg (by omega), if_neg (by omega)]
    exact hback i hi1 hi2

end Zones

/-- What a loop of the partition has done: the zones are there again, and elements were moved about in the segment. -/
structure Scanned (key : α → κ) (a e : ℕ) (s s' : Cut α) : Prop where
  zones : Zones key a e s'
  moved : Rearranges a (e + 1) s.v s'.v
  up : s.pb ≤ s'.pb
  down : s'.pc ≤ s.pc

theorem Scanned.trans {s s' s'' : Cut α} (h : Scanned key a e s s') (h' : Scanned key a e s' s'') : Scanned key a e s s'' :=
  ⟨h'.zones, h.moved.trans h'.moved, h.up.trans h'.up, h'.down.trans h.down⟩

/-- **The first inner loop** stops where it meets the other one, or at a greater element. -/
theorem scanUp_spec : ∀ (left : ℕ) {s : Cut α}, Orders cmp key s.v → Zones key a e s → left = s.pc + 1 - s.pb →
    Scanned key a e s (scanUp cmp a left s) ∧
      ((scanUp cmp a left s).pc < (scanUp cmp a left s).pb ∨ key ((scanUp cmp a left s).v a) < key ((scanUp cmp a left s).v (scanUp cmp a left s).pb)) := by
  intro left
  induction left with
  | zero =>
    intro s _ h hleft
    exact ⟨⟨h, Rearranges.refl _ _ _, le_rfl, le_rfl⟩, Or.inl (show s.pc < s.pb by omega)⟩
  | succ left ih =>
    intro s ho h hleft
    have hle : s.pb ≤ s.pc := by omega
    have hpos := h.pa_pos
    have hpa := h.pa_le
    have hpc := h.pc_le
    have hpd := h.pd_le
    rw [scanUp]
    by_cases h1 : cmp (s.v s.pb) (s.v a) ≤ 0
    · rw [if_pos h1]
      by_cases h2 : cmp (s.v s.pb) (s.v a) = 0
      · rw [if_pos h2]
        have hz := h.equalUp ((ho.eq _ _).1 h2) hle
        have hmoved : Rearranges a (e + 1) s.v s.equalUp.v := swap_rearranges s.v (by omega) (by omega)
        obtain ⟨h3, h4⟩ := ih (ho.rearranged hmoved) hz (show left = s.pc + 1 - (s.pb + 1) by omega)
        exact ⟨Scanned.trans ⟨hz, hmoved, Nat.le_succ s.pb, le_rfl⟩ h3, h4⟩
      · rw [if_neg h2]
        have hz := h.below (lt_of_le_of_ne ((ho.le _ _).1 h1) fun heq => h2 ((ho.eq _ _).2 heq)) hle
        obtain ⟨h3, h4⟩ := ih (s := { s with pb := s.pb + 1 }) ho hz (show left = s.pc + 1 - (s.pb + 1) by omega)
        exact ⟨Scanned.trans ⟨hz, Rearranges.refl _ _ _, Nat.le_succ s.pb, le_rfl⟩ h3, h4⟩
    · rw [if_neg h1]
      exact ⟨⟨h, Rearranges.refl _ _ _, le_rfl, le_rfl⟩, Or.inr (not_le.1 fun hle => h1 ((ho.le _ _).2 hle))⟩

/-- **The second one**, which leaves alone what is found by the first. -/
theorem scanDown_spec : ∀ (left : ℕ) {s : Cut α}, Orders cmp key s.v → Zones key a e s → left = s.pc + 1 - s.pb →
    (s.pc < s.pb ∨ key (s.v a) < key (s.v s.pb)) → Scanned key a e s (scanDown cmp a left s) ∧
      ((scanDown cmp a left s).pc < (scanDown cmp a left s).pb ∨
        key ((scanDown cmp a left s).v a) < key ((scanDown cmp a left s).v (scanDown cmp a left s).pb) ∧
          key ((scanDown cmp a left s).v (scanDown cmp a left s).pc) < key ((scanDown cmp a left s).v a)) := by
  intro left
  induction left with
  | zero =>
    intro s _ h hleft _
    exact ⟨⟨h, Rearranges.refl _ _ _, le_rfl, le_rfl⟩, Or.inl (show s.pc < s.pb by omega)⟩
  | succ left ih =>
    intro s ho h hleft hfound
    have hle : s.pb ≤ s.pc := by omega
    have hgreater := hfound.resolve_left (by omega)
    have hpos := h.pa_pos
    have hpa := h.pa_le
    have hpc := h.pc_le
    have hpd := h.pd_le
    rw [scanDown]
    by_cases h1 : 0 ≤ cmp (s.v s.pc) (s.v a)
    · rw [if_pos h1]
      by_cases h2 : cmp (s.v s.pc) (s.v a) = 0
      · rw [if_pos h2]
        have heq := (ho.eq _ _).1 h2
        have hz := h.equalDown heq hle
        have hmoved : Rearranges a (e + 1) s.v s.equalDown.v := swap_rearranges s.v (by omega) (by omega)
        have hne : s.pb ≠ s.pc := by
          intro hc
          rw [hc, heq] at hgreater
          exact lt_irrefl _ hgreater
        have hfound' : s.pc - 1 < s.pb ∨ key (swap s.v s.pc s.pd a) < key (swap s.v s.pc s.pd s.pb) := by
          right
          rw [swap_at, swap_at, if_neg (by omega), if_neg (by omega), if_neg hne, if_neg (by omega)]
          exact hgreater
        obtain ⟨h3, h4⟩ := ih (ho.rearranged hmoved) hz (show left = s.pc - 1 + 1 - s.pb by omega) hfound'
        exact ⟨Scanned.trans ⟨hz, hmoved, le_rfl, Nat.sub_le s.pc 1⟩ h3, h4⟩
      · rw [if_neg h2]
        have hz := h.above (lt_of_le_of_ne ((ho.ge _ _).1 h1) fun heq => h2 ((ho.eq _ _).2 heq.symm)) hle
        obtain ⟨h3, h4⟩ := ih (s := { s with pc := s.pc - 1 }) ho hz (show left = s.pc - 1 + 1 - s.pb by omega) (Or.inr hgreater)
        exact ⟨Scanned.trans ⟨hz, Rearranges.refl _ _ _, le_rfl, Nat.sub_le s.pc 1⟩ h3, h4⟩
    · rw [if_neg h1]
      exact ⟨⟨h, Rearranges.refl _ _ _, le_rfl, le_rfl⟩, Or.inr ⟨hgreater, not_le.1 fun hle => h1 ((ho.ge _ _).2 hle)⟩⟩

theorem scan_spec {s : Cut α} (ho : Orders cmp key s.v) (h : Zones key a e s) : Scanned key a e s (scan cmp a s) ∧
    ((scan cmp a s).pc < (scan cmp a s).pb ∨ key ((scan cmp a s).v a) < key ((scan cmp a s).v (scan cmp a s).pb) ∧
      key ((scan cmp a s).v (scan cmp a s).pc) < key ((scan cmp a s).v a)) := by
  obtain ⟨h1, h2⟩ := scanUp_spec _ ho h rfl
  obtain ⟨h3, h4⟩ := scanDown_spec _ (ho.rearranged h1.moved) h1.zones rfl h2
  exact ⟨h1.trans h3, h4⟩

/-- **The partition**, until the loops have met. -/
theorem partitionLoop_spec : ∀ (fuel : ℕ) {s : Cut α}, Orders cmp key s.v → Zones key a e s → s.pc + 1 - s.pb ≤ fuel →
    Scanned key a e s (partitionLoop cmp a fuel s) ∧ (partitionLoop cmp a fuel s).pc < (partitionLoop cmp a fuel s).pb := by
  intro fuel
  induction fuel with
  | zero =>
    intro s _ h hfuel
    exact ⟨⟨h, Rearranges.refl _ _ _, le_rfl, le_rfl⟩, show s.pc < s.pb by omega⟩
  | succ fuel ih =>
    intro s ho h hfuel
    obtain ⟨h1, h2⟩ := scan_spec ho h
    rw [partitionLoop]
    by_cases hmet : (scan cmp a s).pc < (scan cmp a s).pb
    · rw [if_pos hmet]
      exact ⟨h1, hmet⟩
    · rw [if_neg hmet]
      obtain ⟨hpb, hpc⟩ := h2.resolve_left hmet
      have hle : (scan cmp a s).pb ≤ (scan cmp a s).pc := not_lt.1 hmet
      have hz := h1.zones.exchange hpb hpc hle
      have hpos := h1.zones.pa_pos
      have hpa := h1.zones.pa_le
      have hpd := h1.zones.pc_le.trans h1.zones.pd_le
      have hmoved : Rearranges a (e + 1) (scan cmp a s).v (scan cmp a s).exchange.v := swap_rearranges _ (by omega) (by omega)
      have hup := h1.up
      have hdown := h1.down
      obtain ⟨h3, h4⟩ := ih ((ho.rearranged h1.moved).rearranged hmoved) hz
        (show (scan cmp a s).pc - 1 + 1 - ((scan cmp a s).pb + 1) ≤ fuel by omega)
      exact ⟨h1.trans (Scanned.trans ⟨hz, hmoved, Nat.le_succ _, Nat.sub_le _ 1⟩ h3), h4⟩

theorem partition_spec (ho : Orders cmp key v) (hn : 2 ≤ n) : Zones key a (a + (n - 1)) (partition cmp v a n) ∧
    Rearranges a (a + n) v (partition cmp v a n).v ∧ (partition cmp v a n).pc < (partition cmp v a n).pb := by
  obtain ⟨h1, h2⟩ := pivot_bounds cmp v a (show 0 < n by omega)
  have hmoved : Rearranges a (a + n) v (swap v a (pivot cmp v a n)) := swap_rearranges v (by omega) ⟨h1, h2⟩
  have hz : Zones key a (a + (n - 1)) ⟨swap v a (pivot cmp v a n), a + 1, a + 1, a + (n - 1), a + (n - 1), false⟩ := by
    constructor
    · exact Nat.lt_succ_self a
    · exact le_rfl
    · change a + 1 ≤ a + (n - 1) + 1
      omega
    · exact le_rfl
    · exact le_rfl
    · intro i hi1 hi2
      change i < a + 1 at hi2
      rw [show i = a by omega]
    · intro i hi1 hi2
      exact absurd hi2 (not_lt.2 hi1)
    · intro i hi1 hi2
      exact absurd hi1 (not_lt.2 hi2)
    · intro i hi1 hi2
      exact absurd hi1 (not_lt.2 hi2)
  obtain ⟨h3, h4⟩ := partitionLoop_spec n (ho.rearranged hmoved) hz (show a + (n - 1) + 1 - (a + 1) ≤ n by omega)
  refine ⟨h3.zones, hmoved.trans ?_, h4⟩
  have := h3.moved
  rwa [show a + (n - 1) + 1 = a + n by omega] at this

structure Parted (key : α → κ) (v : ℕ → α) (lo m₁ m₂ hi : ℕ) (x : κ) : Prop where
  low : ∀ i, lo ≤ i → i < m₁ → key (v i) < x
  mid : ∀ i, m₁ ≤ i → i < m₂ → key (v i) = x
  high : ∀ i, m₂ ≤ i → i < hi → x < key (v i)

theorem Parted.move_low {lo m₁ m₂ hi : ℕ} {x : κ} (h : Parted key v lo m₁ m₂ hi x) (hr : Rearranges lo m₁ v v') (hm : m₁ ≤ m₂) :
    Parted key v' lo m₁ m₂ hi x where
  low := hr.forall_inside (p := fun y => key y < x) h.low
  mid := fun i h1 h2 => by
    rw [hr.outside (Or.inr h1)]
    exact h.mid i h1 h2
  high := fun i h1 h2 => by
    rw [hr.outside (Or.inr (hm.trans h1))]
    exact h.high i h1 h2

theorem Parted.move_high {lo m₁ m₂ hi : ℕ} {x : κ} (h : Parted key v lo m₁ m₂ hi x) (hr : Rearranges m₂ hi v v') (hm : m₁ ≤ m₂) :
    Parted key v' lo m₁ m₂ hi x where
  low := fun i h1 h2 => by
    rw [hr.outside (Or.inl (by omega))]
    exact h.low i h1 h2
  mid := fun i h1 h2 => by
    rw [hr.outside (Or.inl h2)]
    exact h.mid i h1 h2
  high := hr.forall_inside (p := fun y => x < key y) h.high

theorem min_add {x y z r : ℕ} (h : min (y - x) (z - y) = r) (h1 : x ≤ y) (h2 : y ≤ z) : x + r ≤ y ∧ y + r ≤ z ∧ (x + r = y ∨ y + r = z) := by
  omega

theorem vecswaps_at {a r₁ b₁ p r₂ b₂ e : ℕ} (v : ℕ → α) (h₁ : a + r₁ ≤ b₁) (hp : b₁ + r₁ = p) (h₂ : p + r₂ ≤ b₂) (he : b₂ + r₂ = e) (k : ℕ) :
    vecswap r₂ p b₂ (vecswap r₁ a b₁ v) k =
      if k < p then (if a ≤ k ∧ k < a + r₁ then v (b₁ + (k - a)) else if b₁ ≤ k then v (a + (k - b₁)) else v k)
      else if k < p + r₂ then v (b₂ + (k - p)) else if b₂ ≤ k ∧ k < e then v (p + (k - b₂)) else v k := by
  rw [vecswap_at _ _ _ _ h₂]
  by_cases hk : k < p
  · rw [if_pos hk, if_neg (by omega), if_neg (by omega), vecswap_at _ _ _ _ h₁]
    by_cases hk' : a ≤ k ∧ k < a + r₁
    · rw [if_pos hk', if_pos hk']
    · rw [if_neg hk', if_neg hk']
      by_cases hk'' : b₁ ≤ k
      · rw [if_pos hk'', if_pos ⟨hk'', by omega⟩]
      · rw [if_neg hk'', if_neg fun hc => hk'' hc.1]
  · rw [if_neg hk]
    by_cases hk' : k < p + r₂
    · rw [if_pos hk', if_pos ⟨by omega, hk'⟩, vecswap_at _ _ _ _ h₁, if_neg (by omega), if_neg (by omega)]
    · rw [if_neg hk', if_neg fun hc => hk' hc.2, he]
      by_cases hk'' : b₂ ≤ k ∧ k < e
      · rw [if_pos hk'', if_pos hk'', vecswap_at _ _ _ _ h₁, if_neg (by omega), if_neg (by omega)]
      · rw [if_neg hk'', if_neg hk'', vecswap_at _ _ _ _ h₁, if_neg (by omega), if_neg (by omega)]

theorem vecswaps_parted {a x r₁ b₁ p r₂ b₂ y e pa pd : ℕ} {v : ℕ → α} {z : κ} (h₁ : a + r₁ ≤ b₁) (hp : b₁ + r₁ = p) (h₂ : p + r₂ ≤ b₂)
    (he : b₂ + r₂ = e) (hx : pa + x = p) (ha : a ≤ pa) (hr₁ : a + r₁ ≤ pa) (hb₁ : pa ≤ b₁) (heq₁ : a + r₁ = pa ∨ r₁ = x)
    (hy : p + y = pd) (hd : pd ≤ e) (hr₂ : p + r₂ ≤ pd) (hb₂ : pd ≤ b₂) (heq₂ : r₂ = y ∨ pd + r₂ = e)
    (hfront : ∀ i, a ≤ i → i < pa → key (v i) = z) (hlow : ∀ i, pa ≤ i → i < p → key (v i) < z)
    (hhigh : ∀ i, p ≤ i → i < pd → z < key (v i)) (hback : ∀ i, pd ≤ i → i < e → key (v i) = z) :
    Parted key (vecswap r₂ p b₂ (vecswap r₁ a b₁ v)) a (a + x) (e - y) e z where
  low := by
    intro i hi1 hi2
    rw [vecswaps_at v h₁ hp h₂ he, if_pos (by omega)]
    by_cases hi : i < a + r₁
    · rw [if_pos ⟨hi1, hi⟩]
      exact hlow _ (by omega) (by omega)
    · rw [if_neg fun hc => hi hc.2, if_neg (by omega)]
      exact hlow i (by omega) (by omega)
  mid := by
    intro i hi1 hi2
    rw [vecswaps_at v h₁ hp h₂ he]
    by_cases hi : i < p
    · rw [if_pos hi, if_neg (by omega)]
      by_cases hi'' : b₁ ≤ i
      · rw [if_pos hi'']
        exact hfront _ (by omega) (by omega)
      · rw [if_neg hi'']
        exact hfront i (by omega) (by omega)
    · rw [if_neg hi]
      by_cases hi' : i < p + r₂
      · rw [if_pos hi']
        exact hback _ (by omega) (by omega)
      · rw [if_neg hi', if_neg (by omega)]
        exact hback i (by omega) (by omega)
  high := by
    intro i hi1 hi2
    rw [vecswaps_at v h₁ hp h₂ he, if_neg (by omega), if_neg (by omega)]
    by_cases hi'' : b₂ ≤ i
    · rw [if_pos ⟨hi'', hi2⟩]
      exact hhigh _ (by omega) (by omega)
    · rw [if_neg fun hc => hi'' hc.1]
      exact hhigh i (by omega) (by omega)

/-- **The elements that equal the pivot are between the others.** -/
theorem gather_spec {s : Cut α} (h : Zones key a (a + (n - 1)) s) (hmet : s.pc < s.pb) (hn : 0 < n) :
    Parted key (gather a n s) a (a + (s.pb - s.pa)) (a + n - (s.pd - s.pc)) (a + n) (key (s.v a)) ∧ Rearranges a (a + n) s.v (gather a n s) := by
  obtain ⟨h1, h2, h3, h4, h5, hfront, hlow, hhigh, hback⟩ := h
  have hpb : s.pb = s.pc + 1 := by omega
  have hpd_le : s.pd + 1 ≤ a + n := by omega
  have hcut : s.pd - s.pc = s.pd + 1 - s.pb := by rw [hpb, Nat.add_sub_add_right]
  have hrest : a + n - s.pd - 1 = a + n - (s.pd + 1) := Nat.sub_sub _ _ _
  unfold gather
  rw [hcut, hrest]
  obtain ⟨r₁, hr₁⟩ : ∃ r₁, min (s.pa - a) (s.pb - s.pa) = r₁ := ⟨_, rfl⟩
  obtain ⟨r₂, hr₂⟩ : ∃ r₂, min (s.pd + 1 - s.pb) (a + n - (s.pd + 1)) = r₂ := ⟨_, rfl⟩
  rw [hr₁, hr₂]
  -- each block of equal elements changes places with as many others as there are, or moves as a whole
  obtain ⟨hpa, hpb₁, heq₁⟩ := min_add hr₁ h1.le h2
  obtain ⟨hpd, hend, heq₂⟩ := min_add hr₂ (show s.pb ≤ s.pd + 1 by omega) hpd_le
  clear hr₁ hr₂ hcut hrest
  obtain ⟨x, hx⟩ : ∃ x, s.pa + x = s.pb := ⟨_, Nat.add_sub_cancel' h2⟩
  obtain ⟨y, hy⟩ : ∃ y, s.pb + y = s.pd + 1 := ⟨_, Nat.add_sub_cancel' (by omega)⟩
  obtain ⟨b₁, hb₁⟩ : ∃ b₁, b₁ + r₁ = s.pb := ⟨_, Nat.sub_add_cancel (by omega)⟩
  obtain ⟨b₂, hb₂⟩ : ∃ b₂, b₂ + r₂ = a + n := ⟨_, Nat.sub_add_cancel (by omega)⟩
  rw [← hb₁, Nat.add_sub_cancel, hb₁, ← hb₂, Nat.add_sub_cancel, hb₂, Nat.sub_eq_of_eq_add' hx.symm, Nat.sub_eq_of_eq_add' hy.symm]
  refine ⟨vecswaps_parted (by omega) hb₁ (by omega) hb₂ hx h1.le hpa (by omega) (heq₁.imp id fun h => by omega) hy hpd_le hpd (by omega)
    (heq₂.imp (fun h => by omega) id) hfront hlow (fun i hi1 hi2 => hhigh i (by omega) (by omega)) fun i hi1 hi2 => hback i (by omega) (by omega), ?_⟩
  exact (vecswap_rearranges r₁ a b₁ s.v le_rfl (by omega) (by omega)).trans
      (vecswap_rearranges r₂ s.pb b₂ _ (by omega) (by omega) (by omega))

/-! ## The range -/

variable {es r : ℕ} {lrange rrange : ℤ}

def InRange (es : ℕ) (lrange rrange : ℤ) (k : ℕ) : Prop := lrange ≤ k * es ∧ k * es + es ≤ rrange + 1

theorem not_meetsRange (hes : 0 < es) (h : ¬ meetsRange es lrange rrange a r) {k : ℕ} (hk : a ≤ k ∧ k < a + r) (hin : InRange es lrange rrange k) :
    r = 1 := by
  by_contra hr
  refine h ⟨by omega, ?_⟩
  obtain ⟨h1, h2⟩ := hin
  have h3 : a * es ≤ k * es := Nat.mul_le_mul_right es hk.1
  have h4 : (k + 1) * es ≤ (a + r) * es := Nat.mul_le_mul_right es hk.2
  rw [Nat.add_mul, Nat.add_mul, Nat.one_mul] at h4
  rintro (⟨-, h⟩ | ⟨h, -⟩)
  · omega
  · omega

/-- What `_pqsort` does to a segment: elements are moved about in it, and the places of the range are arranged. -/
structure Settles (key : α → κ) (es : ℕ) (lrange rrange : ℤ) (v : ℕ → α) (a n : ℕ) (v' : ℕ → α) : Prop where
  moved : Rearranges a (a + n) v v'
  arranged : ∀ k : ℕ, a ≤ k → k < a + n → InRange es lrange rrange k → Arranged (fun i => key (v' i)) a (a + n) k

theorem Settles.part (hes : 0 < es) (hsort : Settles key es lrange rrange v a r v') :
    Settles key es lrange rrange v a r (if meetsRange es lrange rrange a r then v' else v) := by
  by_cases hmeets : meetsRange es lrange rrange a r
  · rwa [if_pos hmeets]
  · rw [if_neg hmeets]
    refine ⟨Rearranges.refl _ _ _, fun k h1 h2 hin => ?_⟩
    have hr := not_meetsRange hes hmeets ⟨h1, h2⟩ hin
    exact ⟨fun i h3 h4 => by omega, fun j h3 h4 => by omega⟩

theorem Settles.join {m₁ m₂ : ℕ} {x : κ} {u u' : ℕ → α} (hparted : Parted key u a m₁ m₂ (a + n) x) (hm : a ≤ m₁ ∧ m₁ ≤ m₂ ∧ m₂ ≤ a + n)
    (hleft : Settles key es lrange rrange u a (m₁ - a) v) (hright : Settles key es lrange rrange v m₂ (a + n - m₂) u') :
    Settles key es lrange rrange u a n u' := by
  obtain ⟨hmove₁, hset₁⟩ := hleft
  obtain ⟨hmove₂, hset₂⟩ := hright
  rw [show a + (m₁ - a) = m₁ by omega] at hmove₁ hset₁
  rw [show m₂ + (a + n - m₂) = a + n by omega] at hmove₂ hset₂
  have hthree := (hparted.move_low hmove₁ hm.2.1).move_high hmove₂ hm.2.1
  refine ⟨(hmove₁.mono le_rfl (by omega)).trans (hmove₂.mono (by omega) le_rfl), fun k h1 h2 hin => ?_⟩
  refine Arranged.join hthree.low hthree.mid hthree.high (fun h3 h4 => ?_) (fun h3 h4 => hset₂ k h3 h4 hin) h1 h2
  exact (hset₁ k h3 h4 hin).congr (fun i _ hi => congrArg key (hmove₂.outside (Or.inl (by omega)))) h3 h4

theorem insertionSort_settles (es : ℕ) (lrange rrange : ℤ) (a n : ℕ) (ho : Orders cmp key v) : Settles key es lrange rrange v a n (insertionSort cmp a (n - 1) 1 v) := by
  have hone : SortedOn key v a (a + 1) := fun i j h1 h2 h3 => by rw [show i = j by omega]
  obtain ⟨h1, h2⟩ := insertionSort_spec (n - 1) ho hone
  rcases Nat.eq_zero_or_pos n with rfl | hpos
  · exact ⟨Rearranges.refl _ _ _, fun k h3 h4 => by omega⟩
  · rw [show 1 + (n - 1) = n by omega] at h1 h2
    exact ⟨h2, fun k h3 h4 _ => Arranged.of_sorted h1 h3 h4⟩

/-- **The places of the range are arranged in a segment.** -/
theorem _pqsort_settles (hes : 0 < es) : ∀ (fuel a n : ℕ) {v : ℕ → α}, Orders cmp key v → n ≤ fuel →
    Settles key es lrange rrange v a n (_pqsort cmp es lrange rrange fuel a n v) := by
  intro fuel
  induction fuel with
  | zero =>
    intro a n v _ hn
    exact ⟨Rearranges.refl _ _ _, fun k h1 h2 => by omega⟩
  | succ fuel ih =>
    intro a n v ho hn
    rw [_pqsort]
    by_cases h7 : n < 7
    · rw [if_pos h7]
      exact insertionSort_settles es lrange rrange a n ho
    rw [if_neg h7]
    obtain ⟨hz, hmoved, hmet⟩ := partition_spec (a := a) ho (show 2 ≤ n by omega)
    have hos := ho.rearranged hmoved
    by_cases hcnt : (partition cmp v a n).swapCnt = false
    · rw [if_pos hcnt]
      obtain ⟨h1, h2⟩ := insertionSort_settles es lrange rrange a n hos
      exact ⟨hmoved.trans h1, h2⟩
    rw [if_neg hcnt]
    obtain ⟨hparted, hgather⟩ := gather_spec hz hmet (show 0 < n by omega)
    have hog := hos.rearranged hgather
    obtain ⟨h1, h2, h3, h4, h5, -, -, -, -⟩ := hz
    -- the part below the pivot, and with what it leaves the one above it
    have hleft := (ih a ((partition cmp v a n).pb - (partition cmp v a n).pa) hog (by omega)).part hes
    have hright := (ih (a + n - ((partition cmp v a n).pd - (partition cmp v a n).pc)) ((partition cmp v a n).pd - (partition cmp v a n).pc)
      (hog.rearranged hleft.moved) (by omega)).part hes
    have hjoin := Settles.join hparted ⟨by omega, by omega, by omega⟩ (by rwa [Nat.add_sub_cancel_left])
      (by rwa [Nat.sub_sub_self (show (partition cmp v a n).pd - (partition cmp v a n).pc ≤ a + n by omega)])
    exact ⟨(hmoved.trans hgather).trans hjoin.moved, hjoin.arranged⟩

theorem address_of_small {offset : ℤ} (h0 : -2 ^ 63 ≤ offset) (h1 : offset < 2 ^ 63) : address offset = offset :=
  Int.bmod_eq_of_le (by omega) (by omega)

theorem pqsort_settles (lrange rrange : ℤ) (hes : 0 < es) (ho : Orders cmp key v) (hsize : n * es < 2 ^ 63) : Rearranges 0 n v (pqsort cmp v n es lrange rrange) ∧
    ∀ k : ℕ, 0 ≤ lrange → rrange < n → lrange ≤ k → (k : ℤ) ≤ rrange → Arranged (fun i => key (pqsort cmp v n es lrange rrange i)) 0 n k := by
  obtain ⟨h1, h2⟩ : Settles key es (address (lrange * es)) (address ((rrange + 1) * es - 1)) v 0 n (pqsort cmp v n es lrange rrange) :=
    _pqsort_settles hes n 0 n ho le_rfl
  rw [Nat.zero_add] at h1 h2
  refine ⟨h1, fun k h3 h4 h5 h6 => h2 k (Nat.zero_le k) (by omega) ?_⟩
  have hes' : (0 : ℤ) ≤ es := by omega
  have g1 : 0 ≤ lrange * es := Int.mul_nonneg h3 hes'
  have g2 : lrange * es ≤ k * es := Int.mul_le_mul_of_nonneg_right h5 hes'
  have g3 : ((k : ℤ) + 1) * es ≤ (rrange + 1) * es := Int.mul_le_mul_of_nonneg_right (by omega) hes'
  have g4 : (rrange + 1) * es ≤ n * es := Int.mul_le_mul_of_nonneg_right (by omega) hes'
  rw [Int.add_mul, Int.one_mul] at g3
  rw [InRange, address_of_small (by omega) (by omega), address_of_small (by omega) (by omega)]
  omega

end Spec

end KVStores.Redis.Sort
