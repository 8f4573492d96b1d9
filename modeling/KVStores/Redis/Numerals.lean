import KVStores.Redis.RdbSave
import KVStores.Redis.StringType
import KVStores.Redis.ZiplistCoding

/-!
# Numbers as text, and back

`ll2string` and `sdsfromlonglong` with the buffers that they print into, and the three codings of integers that depend on the text being unique.
-/

namespace KVStores.Redis

open List Option

open Aof

/-- **The canonical decimal form**: 0, or digits without a zero in front, behind a minus for a negative number. -/
inductive Canonical : List UInt8 → ℤ → Prop
  | zero : Canonical [48] 0
  | pos {c : UInt8} {l : List UInt8} (hc : 49 ≤ c.toNat) (hdigits : ∀ b ∈ c :: l, isDigit b = true) : Canonical (c :: l) (decimalValue 0 (c :: l))
  | neg {c : UInt8} {l : List UInt8} (hc : 49 ≤ c.toNat) (hdigits : ∀ b ∈ c :: l, isDigit b = true) : Canonical (45 :: c :: l) (-decimalValue 0 (c :: l))

variable {s : List UInt8}

theorem canonical_iff {v : ℤ} : Canonical s v ↔ s = ll2string v := by
  constructor
  · intro h
    cases h with
    | zero => rfl
    | pos hc hdigits =>
      obtain ⟨hdecimal, hpos⟩ := decimal_decimalValue _ hc hdigits
      rw [ll2string, if_neg (by omega), Int.natAbs_natCast, hdecimal]
    | neg hc hdigits =>
      obtain ⟨hdecimal, hpos⟩ := decimal_decimalValue _ hc hdigits
      rw [ll2string, if_pos (by omega), Int.natAbs_neg, Int.natAbs_natCast, hdecimal]
  · rintro rfl
    have hvalue := decimalValue_decimal v.natAbs
    have hdigits := isDigit_decimal v.natAbs
    obtain ⟨c, l, heq, hc, -⟩ := decimal_head v.natAbs
    rw [heq] at hvalue hdigits
    obtain hneg | rfl | hpos := lt_trichotomy v 0
    · have hv : v = -(decimalValue 0 (c :: l) : ℤ) := by omega
      rw [ll2string, if_pos hneg, heq, hv]
      exact .neg (hc (by omega)) hdigits
    · exact .zero
    · have hv : v = (decimalValue 0 (c :: l) : ℤ) := by omega
      rw [ll2string, if_neg (by omega), heq, hv]
      exact .pos (hc (by omega)) hdigits

variable {v : Long}

/-- **`string2ll` reads exactly the canonical numerals** of what fits a `long long`. -/
theorem string2ll_canonical : string2ll s = some v ↔ Canonical s v.1 := string2ll_iff.trans canonical_iff.symm

/-- `char buf[32]`, whatever it holds. -/
abbrev Buf32 : Type := {buf : List UInt8 // buf.length = 32}

/-- The digits, from the end of the buffer on; `p` cells are in front of the next one. -/
@[grind =] def printDigits : ℕ → List UInt8 → ℕ → Option (List UInt8 × ℕ)
  | _, _, 0 => none
  | v, buf, p + 1 => (Memory.write buf p [digitChar (v % 10)]).bind fun buf => if v / 10 = 0 then some (buf, p) else printDigits (v / 10) buf p

/-- The digits, and the sign in front of them: the buffer, and where the text starts. The magnitude is an `unsigned long long`. -/
def printNumber (buf : Buf32) (value : ℤ) : Option (List UInt8 × ℕ) :=
  (printDigits ((if value < 0 then -value else value) % 2 ^ 64).toNat buf.1 32).bind fun r =>
    if value < 0 then (if r.2 = 0 then none else (Memory.write r.1 (r.2 - 1) [45]).map fun buf => (buf, r.2 - 1)) else some r

/-- `ll2string`: what `s` holds then, and the length. -/
def ll2stringBuf (buf : Buf32) (s : List UInt8) (value : ℤ) : Option (List UInt8 × ℕ) :=
  if s.length = 0 then some (s, 0)
  else
    (printNumber buf value).bind fun r =>
      let l := if s.length < 32 - r.2 + 1 then s.length - 1 else 32 - r.2
      (Memory.read r.1 r.2 l).bind fun text => (Memory.write s 0 text).bind fun s => (Memory.write s l [0]).map fun s => (s, l)

def sdsfromlonglong (buf : Buf32) (value : ℤ) : Option (List UInt8) := (printNumber buf value).bind fun r => Memory.read r.1 r.2 (32 - r.2)

/-- **The digits** stand at the end of the free cells. -/
theorem printDigits_spec : ∀ (p v : ℕ) {a b : List UInt8}, a.length = p → (decimal v).length ≤ p →
    printDigits v (a ++ b) p = some (a.take (p - (decimal v).length) ++ decimal v ++ b, p - (decimal v).length) := by
  intro p
  induction p with
  | zero =>
    intro v a b ha hlen
    obtain ⟨c, l, heq, -, -⟩ := decimal_head v
    rw [heq, length_cons] at hlen
    omega
  | succ p ih =>
    intro v a b ha hlen
    obtain ⟨a, x, rfl⟩ : ∃ a' x, a = a' ++ [x] := ⟨a.dropLast, _, (dropLast_append_getLast (by rintro rfl; cases ha)).symm⟩
    have ha : a.length = p := by
      rw [length_append, length_singleton] at ha
      omega
    have hwrite : Memory.write (a ++ [x] ++ b) p [digitChar (v % 10)] = some (a ++ [digitChar (v % 10)] ++ b) := Memory.write_at ha.symm rfl
    rw [printDigits, hwrite, bind_some]
    by_cases hlast : v / 10 = 0
    · have hsmall : v < 10 := by omega
      rw [if_pos hlast, decimal_of_lt hsmall, Nat.mod_eq_of_lt hsmall, length_singleton, Nat.add_sub_cancel, take_left' ha]
    · have hstep := decimal_step (show 10 ≤ v by omega)
      have hcount : (decimal v).length = (decimal (v / 10)).length + 1 := by rw [hstep, length_append, length_singleton]
      have hplace : p + 1 - (decimal v).length = p - (decimal (v / 10)).length := by omega
      rw [if_neg hlast, append_assoc, ih (v / 10) ha (by omega), hplace, hstep, take_append_of_le_length (by omega)]
      simp only [append_assoc]

theorem numeral_length (v : Long) : 0 < (ll2string v.1).length ∧ (ll2string v.1).length ≤ 20 := by
  have hle : (decimal v.1.natAbs).length ≤ 19 := length_decimal 18 (by omega)
  obtain ⟨c, l, heq, -, -⟩ := decimal_head v.1.natAbs
  have hpos : 0 < (decimal v.1.natAbs).length := by
    rw [heq]
    exact Nat.succ_pos _
  rw [ll2string]
  split
  · rw [length_cons]
    omega
  · omega

/-- **A number stands at the end of the buffer.** -/
theorem printNumber_spec (buf : Buf32) (v : Long) :
    ∃ a, a.length + (ll2string v.1).length = 32 ∧ printNumber buf v.1 = some (a ++ ll2string v.1, a.length) := by
  have hmagnitude : ((if v.1 < 0 then -v.1 else v.1) % 2 ^ 64).toNat = v.1.natAbs := by split <;> omega
  have hdigits : (decimal v.1.natAbs).length ≤ 19 := length_decimal 18 (by omega)
  have hprint : printDigits v.1.natAbs (buf.1 ++ []) 32 = some (buf.1.take (32 - (decimal v.1.natAbs).length) ++ decimal v.1.natAbs ++ [], 32 - (decimal v.1.natAbs).length) :=
    printDigits_spec 32 v.1.natAbs buf.2 (by omega)
  rw [append_nil, append_nil] at hprint
  rw [printNumber, hmagnitude, hprint, bind_some, ll2string]
  have hfront : (buf.1.take (32 - (decimal v.1.natAbs).length)).length = 32 - (decimal v.1.natAbs).length := by
    rw [length_take, buf.2]
    omega
  generalize buf.1.take (32 - (decimal v.1.natAbs).length) = front at hfront
  by_cases hneg : v.1 < 0
  · rw [if_pos hneg, if_pos hneg, if_neg (by dsimp only; omega)]
    obtain ⟨a, x, rfl⟩ : ∃ a x, front = a ++ [x] :=
      ⟨front.dropLast, _, (dropLast_append_getLast (by rintro rfl; rw [length_nil] at hfront; omega)).symm⟩
    rw [length_append, length_singleton] at hfront
    have hplace : 32 - (decimal v.1.natAbs).length - 1 = a.length := by omega
    have hwrite : Memory.write (a ++ [x] ++ decimal v.1.natAbs) a.length [45] = some (a ++ [45] ++ decimal v.1.natAbs) := Memory.write_at rfl rfl
    refine ⟨a, by rw [length_cons]; omega, ?_⟩
    rw [hplace, hwrite, map_some, append_assoc]
    rfl
  · rw [if_neg hneg, if_neg hneg]
    exact ⟨front, by omega, by rw [hfront]⟩

/-- **`ll2string`** into a buffer with room for 21 bytes: the canonical numeral, a NUL, and its length. -/
theorem ll2stringBuf_spec (buf : Buf32) (hs : 21 ≤ s.length) (v : Long) :
    ll2stringBuf buf s v.1 = some (ll2string v.1 ++ 0 :: s.drop ((ll2string v.1).length + 1), (ll2string v.1).length) := by
  obtain ⟨a, ha, hprint⟩ := printNumber_spec buf v
  have hlen := (numeral_length v).2
  have hl : 32 - a.length = (ll2string v.1).length := by omega
  rw [ll2stringBuf, if_neg (by omega), hprint, bind_some]
  dsimp only
  rw [hl, if_neg (by omega)]
  have hread : Memory.read (a ++ ll2string v.1) a.length (ll2string v.1).length = some (ll2string v.1) := by
    have h : Memory.read (a ++ ll2string v.1 ++ []) a.length (ll2string v.1).length = some (ll2string v.1) := Memory.read_at rfl rfl
    rwa [append_nil] at h
  have htext : Memory.write s 0 (ll2string v.1) = some (ll2string v.1 ++ s.drop (ll2string v.1).length) := by
    rw [Memory.write, if_pos (by omega), Nat.zero_add, take_zero, nil_append]
  -- the byte behind the text is the NUL's
  obtain ⟨y, hy⟩ : ∃ y, s.drop (ll2string v.1).length = y :: s.drop ((ll2string v.1).length + 1) :=
    ⟨_, drop_eq_getElem_cons (show (ll2string v.1).length < s.length by omega)⟩
  have hnul : Memory.write (ll2string v.1 ++ [y] ++ s.drop ((ll2string v.1).length + 1)) (ll2string v.1).length [0] =
      some (ll2string v.1 ++ [0] ++ s.drop ((ll2string v.1).length + 1)) := Memory.write_at rfl rfl
  rw [append_assoc, append_assoc, singleton_append, singleton_append] at hnul
  rw [hread, bind_some, htext, bind_some, hy, hnul, map_some]

theorem sdsfromlonglong_spec (buf : Buf32) (v : Long) : sdsfromlonglong buf v.1 = some (ll2string v.1) := by
  obtain ⟨a, ha, hprint⟩ := printNumber_spec buf v
  have hl : 32 - a.length = (ll2string v.1).length := by omega
  have hread : Memory.read (a ++ ll2string v.1 ++ []) a.length (ll2string v.1).length = some (ll2string v.1) := Memory.read_at rfl rfl
  rw [append_nil] at hread
  rw [sdsfromlonglong, hprint, bind_some, hl, hread]

/-- `rdbTryIntegerEncoding` of an sds, with its two buffers; no bytes when the string cannot be coded. -/
def tryIntegerEncoding (inner buf : Buf32) (s : List UInt8) : Option (List UInt8) :=
  if atEnd (eptr s) = false then some []
  else
    (ll2stringBuf inner buf.1 (strtoll s)).map fun r =>
      if (r.1.takeWhile (· ≠ 0)).length ≠ s.length ∨ r.1.take s.length ≠ s then [] else Rdb.rdbEncodeInteger (strtoll s)

theorem strtoll_range (s : List UInt8) : -2 ^ 63 ≤ strtoll s ∧ strtoll s < 2 ^ 63 := by
  rw [strtoll]
  split <;> omega

theorem numeral_strtoll (h : string2ll s = some v) : strtoll s = v.1 ∧ atEnd (eptr s) = true := by
  have hparse : getLongLongFromObject s = some v.1 := by
    rw [string2ll_iff.1 h]
    exact getLongLongFromObject_ll2string v.2.1 v.2.2
  refine ⟨strtoll_of_getLongLong hparse, ?_⟩
  by_contra hend
  rw [getLongLongFromObject, if_pos (Or.inr (Or.inl (Bool.eq_false_iff.2 hend)))] at hparse
  cases hparse

theorem tryIntegerEncoding_eq (inner buf : Buf32) (s : List UInt8) : tryIntegerEncoding inner buf s = some (Rdb.rdbTryIntegerEncoding s) := by
  have hbuf : 21 ≤ buf.1.length := by
    omega
  have hprint : ll2stringBuf inner buf.1 (strtoll s) = _ := ll2stringBuf_spec inner hbuf ⟨strtoll s, strtoll_range s⟩
  rw [tryIntegerEncoding, Rdb.rdbTryIntegerEncoding]
  by_cases hend : atEnd (eptr s) = false
  · rw [if_pos hend]
    cases hread : string2ll s with
    | none => rfl
    | some v =>
      have hends := (numeral_strtoll hread).2
      rw [hend] at hends
      cases hends
  rw [if_neg hend, hprint, map_some, Option.some.injEq]
  have hnonul : ∀ b ∈ ll2string (strtoll s), decide (b ≠ 0) = true := by
    intro b hb
    refine decide_eq_true ?_
    rintro rfl
    exact ll2string_noNul _ hb
  have htext : (ll2string (strtoll s) ++ 0 :: buf.1.drop ((ll2string (strtoll s)).length + 1)).takeWhile (fun b => decide (b ≠ 0)) = ll2string (strtoll s) := by
    rw [takeWhile_append_of_pos hnonul, takeWhile_cons_of_neg (by decide), append_nil]
  rw [htext]
  by_cases hsame : ll2string (strtoll s) = s
  · have hread : string2ll s = some ⟨strtoll s, strtoll_range s⟩ := string2ll_iff.2 hsame.symm
    rw [hread, hsame, take_left, if_neg fun h => h.elim (fun h => h rfl) fun h => h rfl]
    rfl
  · have hread : string2ll s = none := by
      cases hread : string2ll s with
      | none => rfl
      | some v => exact absurd (by rw [(numeral_strtoll hread).1]; exact (string2ll_iff.1 hread).symm) hsame
    have hdiffers : (ll2string (strtoll s)).length ≠ s.length ∨
        (ll2string (strtoll s) ++ 0 :: buf.1.drop ((ll2string (strtoll s)).length + 1)).take s.length ≠ s := by
      by_cases hlen : (ll2string (strtoll s)).length = s.length
      · refine Or.inr ?_
        rw [← hlen, take_left]
        exact hsame
      · exact Or.inl hlen
    rw [hread, if_pos hdiffers]
    rfl

/-- An integer of `k` bytes, and its object. -/
def loadInteger (buf : Buf32) (k : ℕ) (encode : Bool) (file : List UInt8) : Option (Robj × List UInt8) :=
  if file.length < k then none
  else if encode = true then some (StringType.createStringObjectFromLongLong (Ziplist.signed (8 * k) (ofLittleEndian (file.take k))), file.drop k)
  else (sdsfromlonglong buf (Ziplist.signed (8 * k) (ofLittleEndian (file.take k)))).map fun s => (.raw s, file.drop k)

/-- `rdbLoadIntegerObject`, from the bytes that the file goes on with: the object and what is left, unless they end or the coding is another one. -/
def rdbLoadIntegerObject (buf : Buf32) (enctype : ℕ) (encode : Bool) (file : List UInt8) : Option (Robj × List UInt8) :=
  if enctype = 0 then loadInteger buf 1 encode file
  else if enctype = 1 then loadInteger buf 2 encode file
  else if enctype = 2 then loadInteger buf 4 encode file
  else none

theorem rdbEncodeInteger_cases (v : ℤ) : Rdb.rdbEncodeInteger v = [] ∨ ∃ k enctype : ℕ, (k = 1 ∧ enctype = 0 ∨ k = 2 ∧ enctype = 1 ∨ k = 4 ∧ enctype = 2) ∧
    -2 ^ (8 * k - 1) ≤ v ∧ v < 2 ^ (8 * k - 1) ∧ Rdb.rdbEncodeInteger v = UInt8.ofNat (192 + enctype) :: littleEndian k (v % 2 ^ (8 * k)).toNat := by
  rw [Rdb.rdbEncodeInteger]
  by_cases h1 : -2 ^ 7 ≤ v ∧ v ≤ 2 ^ 7 - 1
  · rw [if_pos h1]
    exact Or.inr ⟨1, 0, Or.inl ⟨rfl, rfl⟩, h1.1, by omega, rfl⟩
  rw [if_neg h1]
  by_cases h2 : -2 ^ 15 ≤ v ∧ v ≤ 2 ^ 15 - 1
  · rw [if_pos h2]
    exact Or.inr ⟨2, 1, Or.inr (Or.inl ⟨rfl, rfl⟩), h2.1, by omega, rfl⟩
  rw [if_neg h2]
  by_cases h4 : -2 ^ 31 ≤ v ∧ v ≤ 2 ^ 31 - 1
  · rw [if_pos h4]
    exact Or.inr ⟨4, 2, Or.inr (Or.inr ⟨rfl, rfl⟩), h4.1, by omega, rfl⟩
  · rw [if_neg h4]
    exact Or.inl rfl

/-- **An integer of the dump file reads back**, as an object with the same text. -/
theorem rdbLoadIntegerObject_encode (buf : Buf32) (v : Long) (encode : Bool) {e : UInt8} {bytes : List UInt8} (h : Rdb.rdbEncodeInteger v.1 = e :: bytes)
    (rest : List UInt8) :
    e.toNat / 64 = 3 ∧ ∃ o, rdbLoadIntegerObject buf (e.toNat % 64) encode (bytes ++ rest) = some (o, rest) ∧ getDecodedObject o = ll2string v.1 := by
  obtain hnone | ⟨k, enctype, hk, hlow, hhigh, hcode⟩ := rdbEncodeInteger_cases v.1
  · rw [hnone] at h
    cases h
  rw [hcode] at h
  cases h
  have hbyte : (UInt8.ofNat (192 + enctype)).toNat = 192 + enctype := by
    rw [UInt8.toNat_ofNat']
    omega
  have hlen : (littleEndian k (v.1 % 2 ^ (8 * k)).toNat).length = k := littleEndian_length k _
  have hval : Ziplist.signed (8 * k) (ofLittleEndian (littleEndian k (v.1 % 2 ^ (8 * k)).toNat)) = v.1 := Ziplist.signed_littleEndian k rfl (by omega) hlow hhigh
  have hload : rdbLoadIntegerObject buf enctype encode (littleEndian k (v.1 % 2 ^ (8 * k)).toNat ++ rest) =
      if encode = true then some (StringType.createStringObjectFromLongLong v.1, rest) else (sdsfromlonglong buf v.1).map fun s => (.raw s, rest) := by
    have hroom : ¬ (littleEndian k (v.1 % 2 ^ (8 * k)).toNat ++ rest).length < k := by
      rw [length_append]
      omega
    have hobject : rdbLoadIntegerObject buf enctype encode (littleEndian k (v.1 % 2 ^ (8 * k)).toNat ++ rest) =
        loadInteger buf k encode (littleEndian k (v.1 % 2 ^ (8 * k)).toNat ++ rest) := by
      rcases hk with ⟨rfl, rfl⟩ | ⟨rfl, rfl⟩ | ⟨rfl, rfl⟩ <;> rfl
    rw [hobject, loadInteger, if_neg hroom, take_left' hlen, drop_left' hlen, hval]
  refine ⟨by omega, ?_⟩
  have hmod : (192 + enctype) % 64 = enctype := by omega
  rw [hbyte, hmod, hload]
  by_cases hencode : encode = true
  · rw [if_pos hencode]
    refine ⟨_, rfl, ?_⟩
    rw [StringType.createStringObjectFromLongLong, dif_pos v.2]
    rfl
  · rw [if_neg hencode, sdsfromlonglong_spec]
    exact ⟨_, rfl, rfl⟩

/-- **Numbers and their texts**: `string2ll` reads exactly the canonical numerals and `ll2string` prints them; and what a ziplist or the dump file codes as an
integer reads back as the bytes that it was. -/
theorem numerals : (∀ s (v : Long), string2ll s = some v ↔ Canonical s v.1) ∧
      (∀ (buf : Buf32) (v : Long) (s : List UInt8), 21 ≤ s.length → ∃ text rest, ll2stringBuf buf s v.1 = some (text ++ 0 :: rest, text.length) ∧
        Canonical text v.1) ∧ (∀ s v, zipTryEncoding s = some v →
        ll2string (Ziplist.zipLoadInteger (Ziplist.zipSaveInteger v.1 (Ziplist.zipIntEncoding v.1)) (Ziplist.zipIntEncoding v.1)) = s) ∧
      ∀ (inner buf load : Buf32) s, ∃ code, tryIntegerEncoding inner buf s = some code ∧ ∀ e bytes, code = e :: bytes → ∀ encode rest,
        e.toNat / 64 = 3 ∧ ∃ o, rdbLoadIntegerObject load (e.toNat % 64) encode (bytes ++ rest) = some (o, rest) ∧ getDecodedObject o = s := by
  refine ⟨fun s v => string2ll_canonical, fun buf v s hs => ?_, fun s v h => ?_, fun inner buf load s => ?_⟩
  · exact ⟨ll2string v.1, _, ll2stringBuf_spec buf hs v, canonical_iff.2 rfl⟩
  · rw [Ziplist.zipLoadInteger_save v.2.1 v.2.2]
    exact (zipTryEncoding_numeral h).symm
  · refine ⟨_, tryIntegerEncoding_eq inner buf s, fun e bytes hcode encode rest => ?_⟩
    rw [Rdb.rdbTryIntegerEncoding] at hcode
    cases hread : string2ll s with
    | none =>
      rw [hread] at hcode
      cases hcode
    | some v =>
      rw [hread] at hcode
      obtain ⟨htype, o, hload, ho⟩ := rdbLoadIntegerObject_encode load v encode hcode rest
      exact ⟨htype, o, hload, ho.trans (string2ll_iff.1 hread).symm⟩

end KVStores.Redis
