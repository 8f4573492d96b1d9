import KVStores.Lib.Coding
import KVStores.Lib.Dictionary
import Mathlib.Algebra.Order.Ring.Int

/-!
# Serialized lists and maps

`cblistdump`, `cbmapdump` and what reads their arrays (`cabin.c`): numbers of variable length, and elements behind their sizes.

* `cblistload_dump`, `cbmapload_dump`, `cbmaploadone_dump`: **what was dumped is loaded.**
-/

namespace KVStores.Cabin

open List Option

open Dictionary (Distinct)

/-- A read outside the array, or a sum or product that does not fit an `int`. -/
inductive Fault
  | outside
  | overflow
deriving DecidableEq

abbrev Result (α : Type) : Type := Except Fault α

/-- An `int`. -/
def toInt (x : ℤ) : Result ℤ := if -2 ^ 31 ≤ x ∧ x < 2 ^ 31 then .ok x else .error .overflow

/-- A byte as a `signed char`. -/
def signedChar (b : UInt8) : ℤ := if b.toNat < 128 then b.toNat else b.toNat - 256

/-- A number stored in a `signed char`. -/
def charOf (n : ℤ) : UInt8 := UInt8.ofNat (n % 256).toNat

/-! ## Numbers -/

@[grind =] def setVnumLoop : ℕ → ℤ → Bytes
  | 0, _ => []
  | fuel + 1, num =>
    if 0 < num then (if 0 < num / 128 then charOf (-(num % 128) - 1) else charOf (num % 128)) :: setVnumLoop fuel (num / 128)
    else []

/-- `CB_SETVNUMBUF`, and `VL_SETVNUMBUF`. -/
def setVnumBuf (num : ℤ) : Bytes := if num = 0 then [charOf 0] else setVnumLoop num.toNat num

/-- The loop of `CB_READVNUMBUF` over the bytes from `buf` on: the number, and the index where it ends. -/
@[grind =] def readVnumLoop : ℕ → Bytes → ℤ → ℤ → ℕ → Result (ℤ × ℕ)
  | 0, _, _, num, i => .ok (num, i)
  | _ + 1, [], _, _, _ => .error .outside
  | size + 1, c :: buf, base, num, i =>
    if 0 ≤ signedChar c then (toInt (num + signedChar c * base)).map fun num => (num, i)
    else (toInt (num + base * (signedChar c + 1) * -1)).bind fun num => (toInt (base * 128)).bind fun base => readVnumLoop size buf base num (i + 1)

/-- `CB_READVNUMBUF`, and `VL_READVNUMBUF`: the number, and how many bytes it takes. -/
def readVnumBuf (buf : Bytes) (size : ℤ) : Result (ℤ × ℕ) :=
  if size < 2 then
    match buf with
    | [] => .error .outside
    | c :: _ => .ok (signedChar c, 1)
  else (readVnumLoop size.toNat buf 1 0 0).map fun r => (r.1, r.2 + 1)

variable {num size : ℤ} {fuel i n : ℕ} {rest : Bytes} {α β : Type}

theorem ok_bind (a : α) (f : α → Result β) : Except.bind (.ok a) f = f a := rfl

theorem ok_map (a : α) (f : α → β) : Except.map f (.ok a : Result α) = .ok (f a) := rfl

theorem toInt_eq (h₀ : -2 ^ 31 ≤ num) (h : num < 2 ^ 31) : toInt num = .ok num := if_pos ⟨h₀, h⟩

theorem signedChar_charOf_of_lt (h₀ : 0 ≤ num) (h : num < 128) : signedChar (charOf num) = num := by
  unfold signedChar charOf
  rw [Int.emod_eq_of_lt h₀ (by omega)]
  have hnat : (UInt8.ofNat num.toNat).toNat = num.toNat := by
    rw [UInt8.toNat_ofNat']
    omega
  omega

theorem signedChar_charOf_neg (h₀ : 0 ≤ num) (h : num < 128) : signedChar (charOf (-num - 1)) = -num - 1 := by
  unfold signedChar charOf
  have hmod : (-num - 1) % 256 = 255 - num := by omega
  rw [hmod]
  have hnat : (UInt8.ofNat (255 - num).toNat).toNat = (255 - num).toNat := by
    rw [UInt8.toNat_ofNat']
    omega
  omega

theorem setVnumLoop_pos (h : 0 < num) (hf : num.toNat ≤ fuel) : 0 < (setVnumLoop fuel num).length := by
  cases fuel with
  | zero => omega
  | succ fuel =>
    unfold setVnumLoop
    rw [if_pos h]
    exact Nat.succ_pos _

theorem setVnumLoop_zero (fuel : ℕ) : setVnumLoop fuel 0 = [] := by
  cases fuel with
  | zero => rfl
  | succ fuel => exact if_neg (lt_irrefl 0)

theorem readVnumLoop_set (rest : Bytes) : ∀ {fuel : ℕ} {num : ℤ}, 0 < num → num.toNat ≤ fuel → ∀ {k : ℕ} {base acc : ℤ} {i : ℕ},
    (setVnumLoop fuel num).length ≤ k → 0 < base → 0 ≤ acc → acc + num * base < 2 ^ 31 →
    readVnumLoop k (setVnumLoop fuel num ++ rest) base acc i = .ok (acc + num * base, i + (setVnumLoop fuel num).length - 1) := by
  intro fuel
  induction fuel with
  | zero => exact fun h1 h2 => absurd h1 (by omega)
  | succ fuel ih =>
    intro num h1 h2 k base acc i hk hbase hacc hfits
    have hk0 : 0 < k := (setVnumLoop_pos h1 h2).trans_le hk
    obtain ⟨k, rfl⟩ := Nat.exists_eq_succ_of_ne_zero hk0.ne'
    have hrem₀ : 0 ≤ num % 128 := Int.emod_nonneg num (by omega)
    have hrem : num % 128 < 128 := Int.emod_lt_of_pos num (by omega)
    unfold setVnumLoop at hk ⊢
    rw [if_pos h1] at hk ⊢
    by_cases hmore : 0 < num / 128
    · rw [if_pos hmore] at hk ⊢
      have hnum := Int.emod_add_mul_ediv num 128
      have hsum : acc + num * base = acc + num % 128 * base + num / 128 * (base * 128) := by
        calc acc + num * base = acc + (num % 128 + 128 * (num / 128)) * base := by rw [hnum]
          _ = acc + num % 128 * base + num / 128 * (base * 128) := by ring
      have hstep : acc + base * (-(num % 128) - 1 + 1) * -1 = acc + num % 128 * base := by ring
      have hlow : 0 ≤ num % 128 * base := mul_nonneg hrem₀ hbase.le
      have hhigh : base * 128 ≤ num / 128 * (base * 128) := le_mul_of_one_le_left (by omega) hmore
      rw [cons_append, readVnumLoop, signedChar_charOf_neg hrem₀ hrem, if_neg (by omega), hstep, toInt_eq (by omega) (by omega)]
      rw [ok_bind, toInt_eq (by omega) (by omega), ok_bind, ih hmore (by omega) (Nat.le_of_succ_le_succ hk) (by omega) (by omega) (by omega), ← hsum, length_cons]
      rw [show i + 1 + (setVnumLoop fuel (num / 128)).length - 1 = i + ((setVnumLoop fuel (num / 128)).length + 1) - 1 by omega]
    · rw [if_neg hmore]
      have hzero : num / 128 = 0 := by omega
      have hsmall : num % 128 = num := by omega
      have hpos : 0 ≤ num * base := mul_nonneg h1.le hbase.le
      rw [hzero, setVnumLoop_zero, cons_append, readVnumLoop, signedChar_charOf_of_lt hrem₀ hrem, if_pos hrem₀, hsmall,
        toInt_eq (by omega) hfits]
      rfl

theorem setVnumBuf_pos (h : 0 ≤ num) : 0 < (setVnumBuf num).length := by
  unfold setVnumBuf
  split
  · exact Nat.one_pos
  · exact setVnumLoop_pos (by omega) le_rfl

theorem setVnumBuf_of_lt (h₀ : 0 < num) (h : num < 128) : setVnumBuf num = [charOf num] := by
  obtain ⟨m, hm⟩ := Nat.exists_eq_succ_of_ne_zero (show num.toNat ≠ 0 by omega)
  have hzero : num / 128 = 0 := by omega
  have hsmall : num % 128 = num := by omega
  unfold setVnumBuf
  rw [if_neg (by omega), hm, setVnumLoop, if_pos h₀, hzero, if_neg (lt_irrefl 0), setVnumLoop_zero, hsmall]

theorem two_le_setVnumBuf (h : 128 ≤ num) : 2 ≤ (setVnumBuf num).length := by
  obtain ⟨m, hm⟩ := Nat.exists_eq_succ_of_ne_zero (show num.toNat ≠ 0 by omega)
  unfold setVnumBuf
  rw [if_neg (by omega), hm, setVnumLoop, if_pos (by omega), if_pos (by omega), length_cons]
  have := @setVnumLoop_pos (num / 128) m (by omega) (by omega)
  omega

/-- **A number is read back**, with as many bytes as it was written with, if the size is that of what is there or larger. -/
theorem readVnumBuf_set (h : 0 ≤ num) (hint : num < 2 ^ 31) (rest : Bytes) (hsize : ((setVnumBuf num ++ rest).length : ℤ) ≤ size) :
    readVnumBuf (setVnumBuf num ++ rest) size = .ok (num, (setVnumBuf num).length) := by
  have hlen := setVnumBuf_pos h
  rw [length_append] at hsize
  by_cases hshort : size < 2
  · have hsmall : num < 128 := by
      by_contra hnot
      have := two_le_setVnumBuf (not_lt.1 hnot)
      omega
    unfold readVnumBuf
    rw [if_pos hshort]
    rcases h.lt_or_eq with hpos | rfl
    · rw [setVnumBuf_of_lt hpos hsmall, cons_append]
      dsimp only
      rw [signedChar_charOf_of_lt h hsmall]
      rfl
    · rfl
  · unfold readVnumBuf
    rw [if_neg hshort]
    rcases h.lt_or_eq with hpos | rfl
    · have hform : setVnumBuf num = setVnumLoop num.toNat num := if_neg (by omega)
      rw [hform] at hlen hsize ⊢
      rw [readVnumLoop_set rest hpos le_rfl (by omega) Int.one_pos le_rfl (by omega), ok_map]
      rw [Int.mul_one, Int.zero_add, Nat.zero_add, Nat.sub_add_cancel hlen]
    · obtain ⟨k, hk⟩ := Nat.exists_eq_succ_of_ne_zero (show size.toNat ≠ 0 by omega)
      rw [hk]
      rfl

/-! ## Dumps -/

def sized (v : Bytes) : Bytes := setVnumBuf v.length ++ v

def cblistdump (list : List Bytes) : Bytes := setVnumBuf list.length ++ list.flatMap sized

/-- `cbmapdump`: the records in the order of the iterator. -/
def cbmapdump (map : List (Bytes × Bytes)) : Bytes := setVnumBuf map.length ++ map.flatMap fun r => sized r.1 ++ sized r.2

/-! ## Loaders -/

abbrev Left : Type := Bytes × ℤ

/-- `CB_READVNUMBUF`, `rp += step` and `size -= step`. -/
def readNum (b : Left) : Result (ℤ × Left) := (readVnumBuf b.1 b.2).map fun r => (r.1, b.1.drop r.2, b.2 - r.2)

def bytesAt (rp : Bytes) (siz : ℤ) : Result Bytes := if 0 ≤ siz ∧ siz ≤ rp.length then .ok (rp.take siz.toNat) else .error .outside

/-- The bytes that `cbmapput` takes: up to a zero if the size is negative. -/
def datumAt (rp : Bytes) (siz : ℤ) : Result Bytes :=
  if siz < 0 then
    match rp.findIdx? fun c => c = 0 with
    | some k => .ok (rp.take k)
    | none => .error .outside
  else bytesAt rp siz

@[grind =] def listLoop : ℕ → Left → Result (List Bytes)
  | 0, _ => .ok []
  | n + 1, b =>
    if b.2 < 1 then .ok []
    else
      (readNum b).bind fun (vsiz, b) =>
        if b.2 < vsiz then .ok []
        else (bytesAt b.1 vsiz).bind fun v => (listLoop n (b.1.drop vsiz.toNat, b.2)).map fun list => v :: list

def cblistload (ptr : Bytes) : Result (List Bytes) :=
  (readNum (ptr, ptr.length)).bind fun (ln, b) => if b.2 < ln then .ok [] else listLoop ln.toNat b

/-- The loop of `cbmapload`. A pointer that goes back is not read. -/
@[grind =] def mapLoop : ℕ → Left → List (Bytes × Bytes) → Result (List (Bytes × Bytes))
  | 0, _, map => .ok map
  | n + 1, b, map =>
    if b.2 < 1 then .ok map
    else
      (readNum b).bind fun (ksiz, b) =>
        if b.2 < ksiz then .ok map
        else if b.2 < 1 then .ok map
        else
          (readNum (b.1.drop ksiz.toNat, b.2)).bind fun (vsiz, b') =>
            if b'.2 < vsiz then .ok map
            else
              (datumAt b.1 ksiz).bind fun k => (datumAt b'.1 vsiz).bind fun v =>
                mapLoop n (b'.1.drop vsiz.toNat, b'.2) (Dictionary.put k v map)

def cbmapload (ptr : Bytes) : Result (List (Bytes × Bytes)) :=
  (readNum (ptr, ptr.length)).bind fun (rn, b) => if b.2 < rn then .ok [] else mapLoop rn.toNat b []

@[grind =] def oneLoop (key : Bytes) : ℕ → Left → Result (Option Bytes)
  | 0, _ => .ok none
  | n + 1, b =>
    if b.2 < 1 then .ok none
    else
      (readNum b).bind fun (tksiz, b) =>
        if b.2 < tksiz then .ok none
        else if b.2 < 1 then .ok none
        else
          (readNum (b.1.drop tksiz.toNat, b.2)).bind fun (vsiz, b') =>
            if b'.2 < vsiz then .ok none
            else if tksiz = key.length then
              (bytesAt b.1 tksiz).bind fun k =>
                if k = key then (bytesAt b'.1 vsiz).map some else oneLoop key n (b'.1.drop vsiz.toNat, b'.2)
            else oneLoop key n (b'.1.drop vsiz.toNat, b'.2)

def cbmaploadone (ptr key : Bytes) : Result (Option Bytes) :=
  (readNum (ptr, ptr.length)).bind fun (rn, b) => if b.2 < rn then .ok none else oneLoop key rn.toNat b

/-! ## What was dumped is loaded -/

variable {v key T : Bytes} {slack : ℕ} {list : List Bytes} {map : List (Bytes × Bytes)}

theorem sized_length (v : Bytes) : (sized v).length = (setVnumBuf v.length).length + v.length := length_append

theorem readNum_set (h : 0 ≤ num) (hint : num < 2 ^ 31) (hsize : ((setVnumBuf num ++ rest).length : ℤ) ≤ size) :
    readNum (setVnumBuf num ++ rest, size) = .ok (num, rest, size - (setVnumBuf num).length) := by
  rw [readNum, readVnumBuf_set h hint rest hsize, ok_map]
  rw [drop_left]

theorem readNum_sized (hint : v.length < 2 ^ 31) (hsize : ((sized v ++ rest).length : ℤ) ≤ size) :
    readNum (sized v ++ rest, size) = .ok ((v.length : ℤ), v ++ rest, size - (setVnumBuf v.length).length) := by
  rw [sized, append_assoc] at hsize ⊢
  exact readNum_set (Int.natCast_nonneg _) (by omega) hsize

theorem bytesAt_append (v rest : Bytes) : bytesAt (v ++ rest) v.length = .ok v := by
  rw [bytesAt, if_pos ⟨Int.natCast_nonneg _, by rw [length_append]; omega⟩, Int.toNat_natCast, take_left]

theorem datumAt_append (v rest : Bytes) : datumAt (v ++ rest) v.length = .ok v := by
  rw [datumAt, if_neg (by omega), bytesAt_append]

theorem sized_pos (v : Bytes) : 0 < (sized v).length := by
  have := setVnumBuf_pos (Int.natCast_nonneg v.length)
  rw [sized_length]
  omega

theorem listLoop_sized : ∀ {list : List Bytes} {size : ℤ}, (list.flatMap sized).length < 2 ^ 31 → ((list.flatMap sized).length : ℤ) ≤ size →
    listLoop list.length (list.flatMap sized, size) = .ok list := by
  intro list
  induction list with
  | nil => exact fun _ _ => rfl
  | cons v list ih =>
    intro size hint hsize
    have hpos := sized_pos v
    have hlen := sized_length v
    rw [flatMap_cons] at hint hsize ⊢
    have hsplit : (sized v ++ list.flatMap sized).length = (sized v).length + (list.flatMap sized).length := length_append
    rw [length_cons, listLoop]
    rw [if_neg (by omega), readNum_sized (by omega) hsize, ok_bind]
    dsimp only
    rw [if_neg (by omega), bytesAt_append, ok_bind, Int.toNat_natCast, drop_left, ih (by omega) (by omega), ok_map]

theorem length_le_flatMap (list : List Bytes) : list.length ≤ (list.flatMap sized).length := by
  induction list with
  | nil => exact Nat.zero_le _
  | cons v list ih =>
    have := sized_pos v
    rw [flatMap_cons, length_append, length_cons]
    omega

theorem cblistload_dump (h : (cblistdump list).length < 2 ^ 31) : cblistload (cblistdump list) = .ok list := by
  have hcount := length_le_flatMap list
  have hlen : (cblistdump list).length = (setVnumBuf list.length).length + (list.flatMap sized).length := length_append
  rw [cblistload, hlen, cblistdump, readNum_set (Int.natCast_nonneg _) (by omega) (by rw [length_append]), ok_bind]
  dsimp only
  rw [if_neg (by omega), Int.toNat_natCast]
  exact listLoop_sized (by omega) (by omega)

def recordBytes (r : Bytes × Bytes) : Bytes := sized r.1 ++ sized r.2

theorem recordBytes_length (r : Bytes × Bytes) : (recordBytes r).length = (sized r.1).length + (sized r.2).length := length_append

theorem records_cons (r : Bytes × Bytes) (map : List (Bytes × Bytes)) :
    (r :: map).flatMap recordBytes = sized r.1 ++ (sized r.2 ++ map.flatMap recordBytes) ∧
      (sized r.2 ++ map.flatMap recordBytes).length = (sized r.2).length + (map.flatMap recordBytes).length ∧
      ((r :: map).flatMap recordBytes).length = (sized r.1).length + (sized r.2).length + (map.flatMap recordBytes).length := by
  refine ⟨?_, length_append, ?_⟩
  · rw [flatMap_cons, recordBytes, append_assoc]
  · rw [flatMap_cons, length_append, recordBytes_length]

theorem mapLoop_records : ∀ {map done : List (Bytes × Bytes)} {size : ℤ}, (map.flatMap recordBytes).length < 2 ^ 31 →
    ((map.flatMap recordBytes).length : ℤ) ≤ size → Distinct (done ++ map) →
    mapLoop map.length (map.flatMap recordBytes, size) done = .ok (done ++ map) := by
  intro map
  induction map with
  | nil => exact fun _ _ _ => by rw [append_nil]; rfl
  | cons r map ih =>
    intro done size hint hsize hd
    have hpos := sized_pos r.1
    have hpos' := sized_pos r.2
    have hlen := sized_length r.1
    have hlen' := sized_length r.2
    obtain ⟨hform, hrest, hsplit⟩ := records_cons r map
    have hkey : r.1 ∉ done.map Prod.fst := by
      intro hmem
      rw [Distinct, map_append, map_cons] at hd
      exact (nodup_append.1 hd).2.2 r.1 hmem r.1 mem_cons_self rfl
    rw [length_cons, hform, mapLoop]
    rw [if_neg (by omega), readNum_sized (by omega) (by rw [length_append]; omega), ok_bind]
    dsimp only
    rw [if_neg (by omega), if_neg (by omega), Int.toNat_natCast, drop_left, readNum_sized (by omega) (by omega), ok_bind]
    dsimp only
    rw [if_neg (by omega), datumAt_append, ok_bind, datumAt_append, ok_bind, Int.toNat_natCast, drop_left, Dictionary.put_new hkey,
      ih (by omega) (by omega) (by rwa [append_assoc]), append_assoc]
    rfl

theorem length_le_records (map : List (Bytes × Bytes)) : map.length ≤ (map.flatMap recordBytes).length := by
  induction map with
  | nil => exact Nat.zero_le _
  | cons r map ih =>
    have := sized_pos r.1
    rw [flatMap_cons, length_append, length_cons, recordBytes_length]
    omega

/-- **A map is loaded**, in its order. -/
theorem cbmapload_dump (hd : Distinct map) (h : (cbmapdump map).length < 2 ^ 31) : cbmapload (cbmapdump map) = .ok map := by
  have hcount := length_le_records map
  have hlen : (cbmapdump map).length = (setVnumBuf map.length).length + (map.flatMap recordBytes).length := length_append
  rw [cbmapload, hlen, cbmapdump, readNum_set (Int.natCast_nonneg _) (by omega) (by rw [length_append]; exact le_rfl), ok_bind]
  dsimp only
  rw [if_neg (by omega), Int.toNat_natCast]
  exact mapLoop_records (by omega) (by omega) hd

theorem oneLoop_records (key : Bytes) : ∀ {map : List (Bytes × Bytes)} {size : ℤ}, (map.flatMap recordBytes).length < 2 ^ 31 →
    ((map.flatMap recordBytes).length : ℤ) ≤ size → oneLoop key map.length (map.flatMap recordBytes, size) = .ok (Dictionary.get key map) := by
  intro map
  induction map with
  | nil => exact fun _ _ => rfl
  | cons r map ih =>
    intro size hint hsize
    have hpos := sized_pos r.1
    have hpos' := sized_pos r.2
    have hlen := sized_length r.1
    have hlen' := sized_length r.2
    obtain ⟨hform, hrest, hsplit⟩ := records_cons r map
    have hnext := @ih (size - (setVnumBuf r.1.length).length - (setVnumBuf r.2.length).length) (by omega) (by omega)
    rw [length_cons, hform, oneLoop]
    rw [if_neg (by omega), readNum_sized (by omega) (by rw [length_append]; omega), ok_bind]
    dsimp only
    rw [if_neg (by omega), if_neg (by omega), Int.toNat_natCast, drop_left, readNum_sized (by omega) (by omega), ok_bind]
    dsimp only
    rw [if_neg (by omega), Int.toNat_natCast, drop_left, hnext, bytesAt_append, bytesAt_append, Dictionary.get]
    by_cases hk : r.1 = key
    · rw [if_pos hk, if_pos (by rw [hk]), ok_bind, if_pos hk, ok_map]
    · rw [if_neg hk, ok_bind, if_neg hk, ite_self]

/-- **One record of a map is loaded.** -/
theorem cbmaploadone_dump (key : Bytes) (h : (cbmapdump map).length < 2 ^ 31) :
    cbmaploadone (cbmapdump map) key = .ok (Dictionary.get key map) := by
  have hcount := length_le_records map
  have hlen : (cbmapdump map).length = (setVnumBuf map.length).length + (map.flatMap recordBytes).length := length_append
  rw [cbmaploadone, hlen, cbmapdump, readNum_set (Int.natCast_nonneg _) (by omega) (by rw [length_append]; exact le_rfl), ok_bind]
  dsimp only
  rw [if_neg (by omega), Int.toNat_natCast]
  exact oneLoop_records key (by omega) (by omega)

/-! ## Arrays of any kind -/

def number (T : Bytes) : Option (ℤ × Bytes) :=
  match readVnumLoop T.length T 1 0 0 with
  | .ok (num, i) => if i < T.length then some (num, T.drop (i + 1)) else none
  | .error _ => none

def element (T : Bytes) : Option (Bytes × Bytes) :=
  (number T).bind fun (siz, T) => if siz ≤ T.length then some (T.take siz.toNat, T.drop siz.toNat) else none

/-- Two bytes or more, and the number that they begin does not end. -/
def Endless (T : Bytes) : Prop := 2 ≤ T.length ∧ ∃ num, readVnumLoop T.length T 1 0 0 = .ok (num, T.length)

def Lone (T : Bytes) : Prop := ∃ c, T = [c] ∧ signedChar c < 0

/-- A loader stops in time in front of what is not a whole element, after elements of `slack` bytes: there is nothing left; or
the size is larger than what is left and those elements together; or there were no such bytes, and the size does not end. -/
def Refused (slack : ℕ) (T : Bytes) : Prop :=
  (T = [] ∧ slack = 0) ∨ (∃ siz T', number T = some (siz, T') ∧ T'.length + slack < siz) ∨ (slack = 0 ∧ Endless T)

/-- `cblistload` stops in time: all of `n` elements are whole, or the first that is not is refused. -/
@[grind =] def ListStops : ℕ → ℕ → Bytes → Prop
  | 0, _, _ => True
  | n + 1, slack, T =>
    match element T with
    | none => Refused slack T
    | some (v, T) => ListStops n (slack + v.length) T

/-- `cbmapload` stops in time. In front of a key one byte with the sign bit does no harm. -/
@[grind =] def MapStops : ℕ → ℕ → Bytes → Prop
  | 0, _, _ => True
  | n + 1, slack, T =>
    match element T with
    | none => Refused slack T ∨ (slack = 0 ∧ Lone T)
    | some (k, T) =>
      match element T with
      | none => Refused (slack + k.length) T
      | some (v, T) => MapStops n (slack + k.length + v.length) T

/-- `cbmaploadone` stops in time: it does not read the values of other keys, so that the last one need not be whole. -/
@[grind =] def OneStops (key : Bytes) : ℕ → ℕ → Bytes → Prop
  | 0, _, _ => True
  | n + 1, slack, T =>
    match element T with
    | none => Refused slack T ∨ (slack = 0 ∧ Lone T)
    | some (k, T) =>
      match element T with
      | none => Refused (slack + k.length) T ∨ (k ≠ key ∧ ((slack + k.length = 0 ∧ Lone T) ∨ (n = 0 ∧ number T ≠ none)))
      | some (v, T) => k = key ∨ OneStops key n (slack + k.length + v.length) T

theorem readVnumLoop_more (j : ℕ) : ∀ {T : Bytes} {base acc : ℤ} {i : ℕ},
    (∃ num i', readVnumLoop T.length T base acc i = .ok (num, i') ∧ i' < i + T.length ∧ readVnumLoop (T.length + j) T base acc i = .ok (num, i')) ∨
    ((∀ num i', readVnumLoop T.length T base acc i = .ok (num, i') → i' = i + T.length) ∧
      (0 < j → ∃ f, readVnumLoop (T.length + j) T base acc i = .error f)) := by
  intro T
  induction T with
  | nil =>
    intro base acc i
    refine Or.inr ⟨fun num i' h => ?_, fun hj => ?_⟩
    · exact (Prod.ext_iff.1 (Except.ok.inj h)).2.symm
    · obtain ⟨j, rfl⟩ := Nat.exists_eq_succ_of_ne_zero hj.ne'
      exact ⟨_, rfl⟩
  | cons c T ih =>
    intro base acc i
    rw [length_cons, Nat.add_right_comm, readVnumLoop, readVnumLoop]
    by_cases hc : 0 ≤ signedChar c
    · rw [if_pos hc, if_pos hc]
      cases hsum : toInt (acc + signedChar c * base) with
      | ok num => exact Or.inl ⟨num, i, rfl, by omega, rfl⟩
      | error f =>
        refine Or.inr ⟨fun num i' h => ?_, fun _ => ⟨f, rfl⟩⟩
        cases h
    · rw [if_neg hc, if_neg hc]
      cases hsum : toInt (acc + base * (signedChar c + 1) * -1) with
      | error f =>
        refine Or.inr ⟨fun num i' h => ?_, fun _ => ⟨f, rfl⟩⟩
        cases h
      | ok num =>
        cases hbase : toInt (base * 128) with
        | error f =>
          refine Or.inr ⟨fun num i' h => ?_, fun _ => ⟨f, rfl⟩⟩
          cases h
        | ok base' =>
          rw [ok_bind, ok_bind, ok_bind, ok_bind, ← Nat.add_assoc, Nat.add_right_comm]
          exact ih

theorem toInt_ok {x y : ℤ} (h : toInt x = .ok y) : y = x := by
  unfold toInt at h
  split at h
  · exact (Except.ok.inj h).symm
  · cases h

theorem readVnumLoop_nonneg : ∀ {k : ℕ} {T : Bytes} {base acc num : ℤ} {i i' : ℕ}, 0 ≤ base → 0 ≤ acc →
    readVnumLoop k T base acc i = .ok (num, i') → 0 ≤ num := by
  intro k
  induction k with
  | zero =>
    intro T base acc num i i' _ hacc h
    exact hacc.trans_eq (Prod.ext_iff.1 (Except.ok.inj h)).1
  | succ k ih =>
    intro T base acc num i i' hbase hacc h
    cases T with
    | nil => cases h
    | cons c T =>
      rw [readVnumLoop] at h
      by_cases hc : 0 ≤ signedChar c
      · rw [if_pos hc] at h
        cases hsum : toInt (acc + signedChar c * base) with
        | error f =>
          rw [hsum] at h
          cases h
        | ok x =>
          rw [hsum, ok_map] at h
          obtain rfl := (Prod.ext_iff.1 (Except.ok.inj h)).1
          rw [toInt_ok hsum]
          exact add_nonneg hacc (mul_nonneg hc hbase)
      · rw [if_neg hc] at h
        cases hsum : toInt (acc + base * (signedChar c + 1) * -1) with
        | error f =>
          rw [hsum] at h
          cases h
        | ok x =>
          cases hbase' : toInt (base * 128) with
          | error f =>
            rw [hsum, ok_bind, hbase'] at h
            cases h
          | ok base' =>
            rw [hsum, ok_bind, hbase', ok_bind] at h
            refine ih ?_ ?_ h
            · rw [toInt_ok hbase']
              omega
            · have hneg : 0 ≤ base * -(signedChar c + 1) := mul_nonneg hbase (by omega)
              rw [toInt_ok hsum, mul_assoc, mul_neg_one]
              exact add_nonneg hacc hneg

theorem number_eq_none (h : ∀ num i, readVnumLoop T.length T 1 0 0 = .ok (num, i) → ¬i < T.length) : number T = none := by
  unfold number
  cases hr : readVnumLoop T.length T 1 0 0 with
  | error f => rfl
  | ok r => exact if_neg (h r.1 r.2 hr)

theorem number_eq_some {num : ℤ} {i : ℕ} (h : readVnumLoop T.length T 1 0 0 = .ok (num, i)) (hi : i < T.length) : number T = some (num, T.drop (i + 1)) := by
  rw [number, h]
  exact if_pos hi

theorem readVnumLoop_single (c : UInt8) :
    (0 ≤ signedChar c → readVnumLoop 1 [c] 1 0 0 = .ok (signedChar c, 0)) ∧ (signedChar c < 0 → ∃ num, readVnumLoop 1 [c] 1 0 0 = .ok (num, 1)) := by
  have hc := c.toNat_lt
  have hlow : -128 ≤ signedChar c := by
    unfold signedChar
    split <;> omega
  have hhigh : signedChar c < 128 := by
    unfold signedChar
    split <;> omega
  constructor
  · intro h
    rw [readVnumLoop, if_pos h, Int.zero_add, Int.mul_one, toInt_eq (by omega) (by omega)]
    rfl
  · intro h
    rw [readVnumLoop, if_neg (by omega), toInt_eq (by omega) (by omega)]
    exact ⟨_, rfl⟩

/-- **What a loader finds** in front of `T`, with a size that is `slack` too large. -/
theorem readNum_cases (hsize : 1 ≤ T.length + slack) :
    (∃ siz T', number T = some (siz, T') ∧ 0 ≤ siz ∧ readNum (T, (T.length + slack : ℕ)) = .ok (siz, T', (T'.length + slack : ℕ))) ∨
    (number T = none ∧ slack = 0 ∧ Endless T ∧ ∃ siz, 0 ≤ siz ∧ readNum (T, (T.length + slack : ℕ)) = .ok (siz, [], -1)) ∨
    (number T = none ∧ slack = 0 ∧ Lone T ∧ ∃ siz, siz < 0 ∧ readNum (T, (T.length + slack : ℕ)) = .ok (siz, [], 0)) ∨
    (number T = none ∧ ¬(slack = 0 ∧ Endless T) ∧ ¬(slack = 0 ∧ Lone T) ∧ ∃ f, readNum (T, (T.length + slack : ℕ)) = .error f) := by
  by_cases hshort : ((T.length + slack : ℕ) : ℤ) < 2
  · -- one byte, or none
    cases T with
    | nil =>
      have hone : slack = 1 := by
        rw [length_nil] at hsize hshort
        omega
      subst hone
      exact Or.inr (Or.inr (Or.inr ⟨rfl, by omega, by omega, .outside, rfl⟩))
    | cons c T =>
      rw [length_cons] at hshort
      obtain rfl : slack = 0 := by omega
      obtain rfl : T = [] := length_eq_zero_iff.1 (by omega)
      obtain ⟨hpos, hneg⟩ := readVnumLoop_single c
      by_cases hc : 0 ≤ signedChar c
      · exact Or.inl ⟨_, [], number_eq_some (T := [c]) (hpos hc) Nat.one_pos, hc, rfl⟩
      · obtain ⟨num, hr⟩ := hneg (not_le.1 hc)
        refine Or.inr (Or.inr (Or.inl ⟨number_eq_none fun num' i h => ?_, rfl, ⟨c, rfl, not_le.1 hc⟩, _, not_le.1 hc, rfl⟩))
        obtain rfl := (Prod.ext_iff.1 (Except.ok.inj (hr.symm.trans h))).2
        exact lt_irrefl 1
  · have hread : readNum (T, ((T.length + slack : ℕ) : ℤ)) = (readVnumLoop (T.length + slack) T 1 0 0).map fun r =>
        (r.1, T.drop (r.2 + 1), ((T.length + slack : ℕ) : ℤ) - (r.2 + 1 : ℕ)) := by
      unfold readNum readVnumBuf
      rw [if_neg hshort, Int.toNat_natCast]
      cases readVnumLoop (T.length + slack) T 1 0 0 <;> rfl
    rw [hread]
    rcases readVnumLoop_more (T := T) slack with ⟨num, i, h1, hi, h2⟩ | ⟨h1, h2⟩
    · left
      rw [Nat.zero_add] at hi
      refine ⟨num, _, number_eq_some h1 hi, readVnumLoop_nonneg (by omega) le_rfl h1, ?_⟩
      rw [h2, ok_map, length_drop, show ((T.length + slack : ℕ) : ℤ) - (i + 1 : ℕ) = (T.length - (i + 1) + slack : ℕ) by omega]
    · have hnone : number T = none := number_eq_none fun num i h => by
        rw [h1 num i h]
        omega
      right
      rcases Nat.eq_zero_or_pos slack with rfl | hslack
      · rw [Nat.add_zero] at hshort ⊢
        cases hr : readVnumLoop T.length T 1 0 0 with
        | ok r =>
          have hend := h1 r.1 r.2 hr
          rw [Nat.zero_add] at hend
          refine Or.inl ⟨hnone, rfl, ⟨by omega, r.1, hend ▸ hr⟩, r.1, readVnumLoop_nonneg (by omega) le_rfl hr, ?_⟩
          rw [ok_map, hend, drop_eq_nil_of_le (Nat.le_succ _), show ((T.length : ℕ) : ℤ) - (T.length + 1 : ℕ) = -1 by omega]
        | error f =>
          refine Or.inr (Or.inr ⟨hnone, ?_, ?_, f, rfl⟩)
          · rintro ⟨-, -, num, hok⟩
            rw [hr] at hok
            cases hok
          · rintro ⟨-, c, rfl, -⟩
            exact hshort (by change ((1 : ℕ) : ℤ) < 2; decide)
      · obtain ⟨f, hf⟩ := h2 hslack
        exact Or.inr (Or.inr ⟨hnone, by omega, by omega, f, by rw [hf]; rfl⟩)

/-- What is in front of a loader, with a size that is `slack` too large: a whole element, or what it does instead. -/
inductive Look (slack : ℕ) (T : Bytes) : Prop
  | whole (v T₁ : Bytes) (he : element T = some (v, T₁.drop v.length))
      (hr : readNum (T, (T.length + slack : ℕ)) = .ok ((v.length : ℤ), T₁, (T₁.length + slack : ℕ))) (hfit : v.length ≤ T₁.length)
      (hv : T₁.take v.length = v)
  | refused (he : element T = none) (h : Refused slack T) (siz : ℤ) (b : Left) (hr : readNum (T, (T.length + slack : ℕ)) = .ok (siz, b)) (hlt : b.2 < siz)
  | lone (he : element T = none) (h : ¬Refused slack T) (hl : slack = 0 ∧ Lone T) (hn : number T = none) (siz : ℤ) (hneg : siz < 0)
      (hr : readNum (T, (T.length + slack : ℕ)) = .ok (siz, [], 0))
  | cut (he : element T = none) (h : ¬Refused slack T) (hl : ¬(slack = 0 ∧ Lone T)) (hn : number T ≠ none) (siz : ℤ) (T₁ : Bytes)
      (hr : readNum (T, (T.length + slack : ℕ)) = .ok (siz, T₁, (T₁.length + slack : ℕ))) (hcut : (T₁.length : ℤ) < siz)
      (hle : siz ≤ (T₁.length + slack : ℕ))
  | outside (he : element T = none) (h : ¬Refused slack T) (hl : ¬(slack = 0 ∧ Lone T)) (hn : number T = none) (f : Fault)
      (hr : readNum (T, (T.length + slack : ℕ)) = .error f)

theorem element_of_number_eq_none (h : number T = none) : element T = none := by rw [element, h, bind_none]

theorem not_endless_of_lone (h : Lone T) : ¬Endless T := by
  obtain ⟨c, rfl, -⟩ := h
  exact fun hend => absurd hend.1 (by rw [length_singleton]; decide)

theorem number_lone (h : Lone T) : number T = none := by
  obtain ⟨c, rfl, hc⟩ := h
  obtain ⟨num, hr⟩ := (readVnumLoop_single c).2 hc
  refine number_eq_none fun num' i h => ?_
  obtain rfl := (Prod.ext_iff.1 (Except.ok.inj (hr.symm.trans h))).2
  exact lt_irrefl 1

theorem refused_iff_of_none (h : number T = none) (hsize : 1 ≤ T.length + slack) : Refused slack T ↔ slack = 0 ∧ Endless T := by
  constructor
  · rintro (⟨rfl, rfl⟩ | ⟨siz, T', hs, -⟩ | hend)
    · exact absurd hsize (by decide)
    · rw [h] at hs
      cases hs
    · exact hend
  · exact fun hend => Or.inr (Or.inr hend)

theorem look (hsize : 1 ≤ T.length + slack) : Look slack T := by
  rcases readNum_cases hsize with ⟨siz, T₁, hn, hpos, hr⟩ | ⟨hn, hs, hend, siz, hpos, hr⟩ | ⟨hn, hs, hl, siz, hneg, hr⟩ | ⟨hn, hend, hl, f, hr⟩
  · by_cases hfit : siz ≤ T₁.length
    · -- a whole element
      have hlen : (T₁.take siz.toNat).length = siz.toNat := by
        rw [length_take]
        omega
      refine .whole (T₁.take siz.toNat) T₁ ?_ ?_ (by omega) (by rw [hlen])
      · rw [element, hn, bind_some]
        dsimp only
        rw [if_pos hfit, hlen]
      · rw [hr, hlen, Int.toNat_of_nonneg hpos]
    · have he : element T = none := by
        rw [element, hn, bind_some]
        exact if_neg hfit
      have hnl : ¬(slack = 0 ∧ Lone T) := by
        rintro ⟨-, hl⟩
        rw [number_lone hl] at hn
        cases hn
      by_cases hle : siz ≤ (T₁.length + slack : ℕ)
      · refine .cut he ?_ hnl (by rw [hn]; exact some_ne_none _) siz T₁ hr (not_le.1 hfit) hle
        rintro (⟨rfl, rfl⟩ | ⟨siz', T', hs, hlt⟩ | ⟨rfl, -⟩)
        · exact absurd hsize (by decide)
        · rw [hn] at hs
          obtain ⟨rfl, rfl⟩ := Prod.ext_iff.1 (Option.some.inj hs)
          dsimp only at hlt
          omega
        · omega
      · refine .refused he (Or.inr (Or.inl ⟨siz, T₁, hn, by omega⟩)) siz _ hr ?_
        exact not_le.1 hle
  · refine .refused (element_of_number_eq_none hn) (Or.inr (Or.inr ⟨hs, hend⟩)) siz _ hr ?_
    omega
  · refine .lone (element_of_number_eq_none hn) ?_ ⟨hs, hl⟩ hn siz hneg hr
    rw [refused_iff_of_none hn hsize]
    exact fun h => not_endless_of_lone hl h.2
  · refine .outside (element_of_number_eq_none hn) ?_ hl hn f hr
    rw [refused_iff_of_none hn hsize]
    exact hend

theorem refused_of_empty (h : ¬1 ≤ T.length + slack) : T = [] ∧ slack = 0 := ⟨length_eq_zero_iff.1 (by omega), by omega⟩

theorem element_nil : element [] = none := rfl

def Returns {α : Type} (r : Result α) : Prop := ∃ a, r = .ok a

theorem returns_ok (a : α) : Returns (.ok a : Result α) := ⟨a, rfl⟩

theorem not_returns_error (f : Fault) : ¬Returns (.error f : Result α) := by
  rintro ⟨a, h⟩
  cases h

theorem returns_map (f : α → β) (r : Result α) : Returns (r.map f) ↔ Returns r := by
  cases r with
  | ok a => exact iff_of_true (returns_ok _) (returns_ok _)
  | error e => exact iff_of_false (not_returns_error e) (not_returns_error e)

variable {siz : ℤ}

theorem bytesAt_ok (h₀ : 0 ≤ siz) (h : siz ≤ T.length) : bytesAt T siz = .ok (T.take siz.toNat) := if_pos ⟨h₀, h⟩

theorem bytesAt_error (h : ¬(0 ≤ siz ∧ siz ≤ T.length)) : bytesAt T siz = .error .outside := if_neg h

/-- **The loop of `cblistload`** reads what is inside just if it stops in time. -/
theorem listLoop_iff : ∀ {n slack : ℕ} {T : Bytes}, Returns (listLoop n (T, (T.length + slack : ℕ))) ↔ ListStops n slack T := by
  intro n
  induction n with
  | zero => exact iff_of_true (returns_ok _) trivial
  | succ n ih =>
    intro slack T
    unfold listLoop ListStops
    by_cases hsize : 1 ≤ T.length + slack
    · rw [if_neg (by omega)]
      cases look hsize with
      | whole v T₁ he hr hfit hv =>
        rw [hr, ok_bind, he]
        dsimp only
        rw [if_neg (by omega), bytesAt_ok (by omega) (by omega), ok_bind, returns_map, Int.toNat_natCast, ← ih, length_drop]
        rw [show T₁.length + slack = T₁.length - v.length + (slack + v.length) by omega]
      | refused he h siz b hr hlt =>
        rw [hr, ok_bind, he]
        dsimp only
        rw [if_pos hlt]
        exact iff_of_true (returns_ok _) h
      | lone he h hl hn siz hneg hr =>
        rw [hr, ok_bind, he]
        dsimp only
        rw [if_neg (by omega), bytesAt_error (by omega)]
        exact iff_of_false (not_returns_error _) h
      | cut he h hl hn siz T₁ hr hcut hle =>
        rw [hr, ok_bind, he]
        dsimp only
        rw [if_neg (by omega), bytesAt_error (by omega)]
        exact iff_of_false (not_returns_error _) h
      | outside he h hl hn f hr =>
        rw [hr, he]
        exact iff_of_false (not_returns_error _) h
    · obtain ⟨rfl, rfl⟩ := refused_of_empty hsize
      exact iff_of_true (returns_ok _) (Or.inl ⟨rfl, rfl⟩)

theorem readNum_nil (size : ℤ) : ∃ f, readNum ([], size) = .error f := by
  unfold readNum readVnumBuf
  by_cases hshort : size < 2
  · rw [if_pos hshort]
    exact ⟨_, rfl⟩
  · obtain ⟨k, hk⟩ := Nat.exists_eq_succ_of_ne_zero (show size.toNat ≠ 0 by omega)
    rw [if_neg hshort, hk]
    exact ⟨_, rfl⟩

theorem datumAt_ok (h₀ : 0 ≤ siz) (h : siz ≤ T.length) : datumAt T siz = .ok (T.take siz.toNat) := by
  rw [datumAt, if_neg (by omega), bytesAt_ok h₀ h]

/-- **The loop of `cbmapload`** reads what is inside just if it stops in time. -/
theorem mapLoop_iff : ∀ {n slack : ℕ} {T : Bytes} {map : List (Bytes × Bytes)},
    Returns (mapLoop n (T, (T.length + slack : ℕ)) map) ↔ MapStops n slack T := by
  intro n
  induction n with
  | zero => exact iff_of_true (returns_ok _) trivial
  | succ n ih =>
    intro slack T map
    unfold mapLoop MapStops
    by_cases hsize : 1 ≤ T.length + slack
    · rw [if_neg (by omega)]
      cases look hsize with
      | whole k T₁ he hr hfit hk =>
        rw [hr, ok_bind, he]
        dsimp only
        rw [if_neg (by omega), Int.toNat_natCast]
        have hlen : T₁.length + slack = (T₁.drop k.length).length + (slack + k.length) := by
          rw [length_drop]
          omega
        rw [hlen]
        generalize hT : T₁.drop k.length = T₂
        by_cases hsize' : 1 ≤ T₂.length + (slack + k.length)
        · rw [if_neg (by omega)]
          cases look hsize' with
          | whole v T₃ he' hr' hfit' hv =>
            rw [hr', ok_bind, he']
            dsimp only
            rw [if_neg (by omega), datumAt_ok (by omega) (by omega), ok_bind, datumAt_ok (by omega) (by omega), ok_bind, Int.toNat_natCast, ← ih,
              length_drop]
            rw [show T₃.length + (slack + k.length) = T₃.length - v.length + (slack + k.length + v.length) by omega]
          | refused he' h siz b hr' hlt =>
            rw [hr', ok_bind, he']
            rw [if_pos hlt]
            exact iff_of_true (returns_ok _) h
          | lone he' h hl hn siz hneg hr' =>
            rw [hr', ok_bind, he']
            dsimp only
            rw [if_neg (by omega), datumAt_ok (by omega) (by omega), ok_bind, datumAt, if_pos hneg]
            exact iff_of_false (not_returns_error _) h
          | cut he' h hl hn siz T₃ hr' hcut hle =>
            rw [hr', ok_bind, he']
            dsimp only
            rw [if_neg (by omega), datumAt_ok (by omega) (by omega), ok_bind, datumAt, if_neg (by omega), bytesAt_error (by omega)]
            exact iff_of_false (not_returns_error _) h
          | outside he' h hl hn f hr' =>
            rw [hr', he']
            exact iff_of_false (not_returns_error _) h
        · obtain ⟨rfl, hzero⟩ := refused_of_empty hsize'
          rw [if_pos (by rw [hzero]; decide), element_nil]
          exact iff_of_true (returns_ok _) (Or.inl ⟨rfl, hzero⟩)
      | refused he h siz b hr hlt =>
        rw [hr, ok_bind, he]
        dsimp only
        rw [if_pos hlt]
        exact iff_of_true (returns_ok _) (Or.inl h)
      | lone he h hl hn siz hneg hr =>
        rw [hr, ok_bind, he]
        dsimp only
        rw [if_neg (by omega), if_pos (by decide)]
        exact iff_of_true (returns_ok _) (Or.inr hl)
      | cut he h hl hn siz T₁ hr hcut hle =>
        rw [hr, ok_bind, he]
        dsimp only
        obtain ⟨f, hf⟩ := readNum_nil (T₁.length + slack : ℕ)
        rw [if_neg (by omega), if_neg (by omega), drop_eq_nil_of_le (by omega), hf]
        exact iff_of_false (not_returns_error f) (not_or.2 ⟨h, hl⟩)
      | outside he h hl hn f hr =>
        rw [hr, he]
        exact iff_of_false (not_returns_error _) (not_or.2 ⟨h, hl⟩)
    · obtain ⟨rfl, rfl⟩ := refused_of_empty hsize
      exact iff_of_true (returns_ok _) (Or.inl (Or.inl ⟨rfl, rfl⟩))

theorem oneLoop_behind (key : Bytes) {n : ℕ} {size : ℤ} (h : 1 ≤ size) : Returns (oneLoop key n ([], size)) ↔ n = 0 := by
  cases n with
  | zero => exact iff_of_true (returns_ok _) rfl
  | succ n =>
    obtain ⟨f, hf⟩ := readNum_nil size
    unfold oneLoop
    rw [if_neg (by omega), hf]
    exact iff_of_false (not_returns_error f) (Nat.succ_ne_zero n)

theorem oneLoop_ended (key : Bytes) (n : ℕ) (T : Bytes) : Returns (oneLoop key n (T, 0)) := by
  cases n with
  | zero => exact returns_ok _
  | succ n => exact returns_ok _

/-- **The loop of `cbmaploadone`** reads what is inside just if it stops in time. -/
theorem oneLoop_iff (key : Bytes) : ∀ {n slack : ℕ} {T : Bytes}, Returns (oneLoop key n (T, (T.length + slack : ℕ))) ↔ OneStops key n slack T := by
  intro n
  induction n with
  | zero => exact iff_of_true (returns_ok _) trivial
  | succ n ih =>
    intro slack T
    unfold oneLoop OneStops
    by_cases hsize : 1 ≤ T.length + slack
    · rw [if_neg (by omega)]
      cases look hsize with
      | whole k T₁ he hr hfit hk =>
        rw [hr, ok_bind, he]
        have hkey : ∀ (x : Result (Option Bytes)) (y : Result (Option Bytes)), (if (k.length : ℤ) = key.length then (bytesAt T₁ k.length).bind fun k =>
            if k = key then x else y else y) = if k = key then x else y := by
          intro x y
          rw [bytesAt_ok (by omega) (by omega), ok_bind, Int.toNat_natCast, hk]
          by_cases hkk : k = key
          · rw [if_pos (by rw [hkk])]
          · rw [if_neg hkk, ite_self]
        simp only [hkey]
        rw [if_neg (by omega), Int.toNat_natCast]
        have hlen : T₁.length + slack = (T₁.drop k.length).length + (slack + k.length) := by
          rw [length_drop]
          omega
        rw [hlen]
        generalize hT : T₁.drop k.length = T₂
        by_cases hsize' : 1 ≤ T₂.length + (slack + k.length)
        · rw [if_neg (by omega)]
          cases look hsize' with
          | whole v T₃ he' hr' hfit' hv =>
            rw [hr', ok_bind, he']
            dsimp only
            rw [if_neg (by omega), bytesAt_ok (by omega) (by omega), ok_map, Int.toNat_natCast, ← ih, length_drop]
            rw [show T₃.length + (slack + k.length) = T₃.length - v.length + (slack + k.length + v.length) by omega]
            by_cases hkk : k = key
            · rw [if_pos hkk]
              exact iff_of_true (returns_ok _) (Or.inl hkk)
            · rw [if_neg hkk]
              exact (or_iff_right hkk).symm
          | refused he' h siz b hr' hlt =>
            rw [hr', ok_bind, he']
            rw [if_pos hlt]
            exact iff_of_true (returns_ok _) (Or.inl h)
          | lone he' h hl hn siz hneg hr' =>
            rw [hr', ok_bind, he']
            dsimp only
            rw [if_neg (by omega), bytesAt_error (by omega), or_iff_right h]
            by_cases hkk : k = key
            · rw [if_pos hkk]
              exact iff_of_false (not_returns_error _) fun hc => hc.1 hkk
            · rw [if_neg hkk]
              exact iff_of_true (oneLoop_ended key n _) ⟨hkk, Or.inl hl⟩
          | cut he' h hl hn siz T₃ hr' hcut hle =>
            rw [hr', ok_bind, he']
            dsimp only
            rw [if_neg (by omega), bytesAt_error (by omega), or_iff_right h]
            by_cases hkk : k = key
            · rw [if_pos hkk]
              exact iff_of_false (not_returns_error _) fun hc => hc.1 hkk
            · rw [if_neg hkk, drop_eq_nil_of_le (by omega), oneLoop_behind key (by omega), or_iff_right hl]
              exact ⟨fun hzero => ⟨hkk, hzero, hn⟩, fun hc => hc.2.1⟩
          | outside he' h hl hn f hr' =>
            rw [hr', he']
            refine iff_of_false (not_returns_error _) ?_
            rintro (hc | ⟨-, hc | ⟨-, hc⟩⟩)
            · exact h hc
            · exact hl hc
            · exact hc hn
        · obtain ⟨rfl, hzero⟩ := refused_of_empty hsize'
          rw [if_pos (by rw [hzero]; decide), element_nil]
          exact iff_of_true (returns_ok _) (Or.inl (Or.inl ⟨rfl, hzero⟩))
      | refused he h siz b hr hlt =>
        rw [hr, ok_bind, he]
        dsimp only
        rw [if_pos hlt]
        exact iff_of_true (returns_ok _) (Or.inl h)
      | lone he h hl hn siz hneg hr =>
        rw [hr, ok_bind, he]
        dsimp only
        rw [if_neg (by omega), if_pos (by decide)]
        exact iff_of_true (returns_ok _) (Or.inr hl)
      | cut he h hl hn siz T₁ hr hcut hle =>
        rw [hr, ok_bind, he]
        dsimp only
        obtain ⟨f, hf⟩ := readNum_nil (T₁.length + slack : ℕ)
        rw [if_neg (by omega), if_neg (by omega), drop_eq_nil_of_le (by omega), hf]
        exact iff_of_false (not_returns_error f) (not_or.2 ⟨h, hl⟩)
      | outside he h hl hn f hr =>
        rw [hr, he]
        exact iff_of_false (not_returns_error _) (not_or.2 ⟨h, hl⟩)
    · obtain ⟨rfl, rfl⟩ := refused_of_empty hsize
      exact iff_of_true (returns_ok _) (Or.inl (Or.inl ⟨rfl, rfl⟩))

/-- An array begins with a count that is larger than what is left, or that `P` holds of; or no count ends in it. -/
def Counts (P : ℕ → Bytes → Prop) (ptr : Bytes) : Prop :=
  match number ptr with
  | some (n, T) => T.length < n ∨ P n.toNat T
  | none => Endless ptr ∨ Lone ptr

theorem counts_iff {α : Type} {loop : ℕ → Left → Result α} {P : ℕ → Bytes → Prop} {ptr : Bytes} (a : α) (hzero : ∀ b, Returns (loop 0 b))
    (hloop : ∀ n T, Returns (loop n (T, (T.length + 0 : ℕ))) ↔ P n T) :
    Returns ((readNum (ptr, ptr.length)).bind fun r => if r.2.2 < r.1 then .ok a else loop r.1.toNat r.2) ↔ Counts P ptr := by
  cases ptr with
  | nil => exact iff_of_false (not_returns_error _) fun h => h.elim (fun h => absurd h.1 (by decide)) fun ⟨_, h, _⟩ => cons_ne_nil _ _ h.symm
  | cons c T =>
    generalize hptr : c :: T = ptr
    have hsize : 1 ≤ ptr.length + 0 := by
      rw [← hptr]
      exact Nat.succ_pos _
    unfold Counts
    rcases readNum_cases hsize with ⟨n, T₁, hn, -, hr⟩ | ⟨hn, -, hend, n, hpos, hr⟩ | ⟨hn, -, hl, n, hneg, hr⟩ | ⟨hn, hend, hl, f, hr⟩
    · rw [Nat.add_zero] at hr
      rw [hr, ok_bind, hn]
      dsimp only
      rw [Nat.add_zero, ← hloop, Nat.add_zero]
      by_cases hlt : (T₁.length : ℤ) < n
      · rw [if_pos hlt]
        exact iff_of_true (returns_ok _) (Or.inl hlt)
      · rw [if_neg hlt]
        exact (or_iff_right hlt).symm
    · rw [Nat.add_zero] at hr
      rw [hr, ok_bind, hn, if_pos (show (-1 : ℤ) < n by omega)]
      exact iff_of_true (returns_ok _) (Or.inl hend)
    · rw [Nat.add_zero] at hr
      rw [hr, ok_bind, hn, if_neg (show ¬(0 : ℤ) < n by omega), Int.toNat_of_nonpos hneg.le]
      exact iff_of_true (hzero _) (Or.inr hl)
    · rw [Nat.add_zero] at hr
      rw [hr, hn]
      exact iff_of_false (not_returns_error _) fun h => h.elim (fun h => hend ⟨rfl, h⟩) fun h => hl ⟨rfl, h⟩

/-- **What was dumped is loaded**, and each loader reads an array of any kind inside just if it stops in time. -/
theorem cabin_loaders_iff (ptr : Bytes) : (∀ list, (cblistdump list).length < 2 ^ 31 → cblistload (cblistdump list) = .ok list) ∧
    (∀ map, Distinct map → (cbmapdump map).length < 2 ^ 31 → cbmapload (cbmapdump map) = .ok map ∧
      ∀ key, cbmaploadone (cbmapdump map) key = .ok (Dictionary.get key map)) ∧
    (Returns (cblistload ptr) ↔ Counts (fun n => ListStops n 0) ptr) ∧ (Returns (cbmapload ptr) ↔ Counts (fun n => MapStops n 0) ptr) ∧
    ∀ key, Returns (cbmaploadone ptr key) ↔ Counts (fun n => OneStops key n 0) ptr :=
  ⟨fun _ h => cblistload_dump h, fun _ hd h => ⟨cbmapload_dump hd h, fun key => cbmaploadone_dump key h⟩,
    counts_iff [] (fun _ => returns_ok _) fun _ _ => listLoop_iff, @counts_iff _ (fun n b => mapLoop n b []) _ ptr [] (fun _ => returns_ok _) fun _ _ => mapLoop_iff,
    fun key => counts_iff none (fun _ => returns_ok _) fun _ _ => oneLoop_iff key⟩

theorem cabin_loaders_truncated : ¬ ∀ ptr : Bytes, Returns (cblistload ptr) ∧ Returns (cbmapload ptr) ∧ ∀ key, Returns (cbmaploadone ptr key) := by
  intro h
  have hlist : cblistload [2, 1, 97] = .error .outside := by decide
  obtain ⟨list, hl⟩ := (h [2, 1, 97]).1
  cases hl

end KVStores.Cabin
