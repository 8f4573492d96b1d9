import KVStores.Redis.StringType

/-!
# What the string commands do

* `getrange_iff`: `GETRANGE` replies with the bytes of its range, unless the last place is not cut because only 32 bits of it are looked at (`Uncut`).
* `writes_iff`: `SETRANGE`, `APPEND` and `SETBIT` write what they are told to, or leave the key alone, unless the new length is no `long long` (`Write.Wraps`).
* `incr_iff`: `INCR` and its siblings compute exactly, but for `DECRBY` of the smallest number, which has no opposite (`Incr.NoOpposite`).
-/

namespace KVStores.Redis.StringType

open List

open Aof (strtoll)

theorem getLongLongFromObject_range {s : List UInt8} {n : ℤ} (h : getLongLongFromObject s = some n) : -2 ^ 63 ≤ n ∧ n < 2 ^ 63 := by
  have hstr : -2 ^ 63 ≤ strtoll s ∧ strtoll s < 2 ^ 63 := by
    unfold strtoll
    split <;> omega
  unfold getLongLongFromObject at h
  split at h
  · cases h
  · rw [← Option.some.inj h]
    exact hstr

/-- A place: a negative one counts from the end, and none is in front of the start. -/
def place (len : ℕ) (i : ℤ) : ℤ := max (if i < 0 then len + i else i) 0

def bytesFromTo (s : List UInt8) (first last : ℤ) : List UInt8 := (s.drop first.toNat).take (last + 1 - first).toNat

def rangeOf (s : List UInt8) (start stop : ℤ) : List UInt8 := bytesFromTo s (place s.length start) (min (place s.length stop) (s.length - 1))

/-- The last place is behind the end, its lower 32 bits are not, and the first place is in front of it. -/
def Uncut (len : ℕ) (start stop : ℤ) : Prop := (len : ℤ) ≤ stop ∧ stop % 2 ^ 32 < len ∧ place len start ≤ stop

variable {len : ℕ}

theorem getrangeBounds_spec (hlen : len ≤ stringMax) {start stop : ℤ} (hstart : -2 ^ 63 ≤ start ∧ start < 2 ^ 63)
    (hstop : -2 ^ 63 ≤ stop ∧ stop < 2 ^ 63) :
    getrangeBounds len start stop = (place len start, if (len : ℤ) ≤ place len stop % 2 ^ 32 then (len : ℤ) - 1 else place len stop) := by
  have hmax : stringMax = 536870912 := rfl
  have hplace : ∀ i : ℤ, -2 ^ 63 ≤ i → i < 2 ^ 63 →
      (if (if i < 0 then ((len : ℤ) + i).bmod (2 ^ 64) else i) < 0 then 0 else if i < 0 then ((len : ℤ) + i).bmod (2 ^ 64) else i) = place len i := by
    intro i hlow hhigh
    unfold place
    by_cases hneg : i < 0
    · have hb : ((len : ℤ) + i).bmod (2 ^ 64) = len + i := Int.bmod_eq_of_le (by omega) (by omega)
      rw [if_pos hneg, if_pos hneg, hb]
      by_cases h : (len : ℤ) + i < 0
      · rw [if_pos h, max_eq_right (by omega)]
      · rw [if_neg h, max_eq_left (by omega)]
    · rw [if_neg hneg, if_neg hneg, if_neg hneg, max_eq_left (by omega)]
  unfold getrangeBounds
  dsimp only
  rw [hplace start hstart.1 hstart.2, hplace stop hstop.1 hstop.2]

theorem getrange_iff (o : Robj) (hlen : (getDecodedObject o).length ≤ stringMax) {startArg endArg : Sds} {start stop : ℤ}
    (hstart : getLongLongFromObject startArg.1 = some start) (hstop : getLongLongFromObject endArg.1 = some stop) :
    getrangeCommand startArg endArg (some (.string o)) = some (.bulk (rangeOf (getDecodedObject o) start stop)) ↔
      ¬ Uncut (getDecodedObject o).length start stop := by
  have hr := getLongLongFromObject_range hstop
  have hcmd : getrangeCommand startArg endArg (some (.string o)) =
      if (getrangeBounds (getDecodedObject o).length start stop).2 < (getrangeBounds (getDecodedObject o).length start stop).1 then some emptybulk
      else addReplyBulkCBuffer (getDecodedObject o) (getrangeBounds (getDecodedObject o).length start stop).1.toNat
        ((getrangeBounds (getDecodedObject o).length start stop).2 - (getrangeBounds (getDecodedObject o).length start stop).1 + 1).toNat := by
    unfold getrangeCommand
    rw [hstart, hstop]
  rw [hcmd, getrangeBounds_spec hlen (getLongLongFromObject_range hstart) hr]
  unfold rangeOf bytesFromTo addReplyBulkCBuffer Memory.read
  generalize getDecodedObject o = s at hlen ⊢
  have hfirst : 0 ≤ place s.length start := le_max_right _ _
  have hlast : 0 ≤ place s.length stop := le_max_right _ _
  generalize hp : place s.length start = p at hfirst ⊢
  generalize hq : place s.length stop = q at hlast ⊢
  by_cases hcut : (s.length : ℤ) ≤ q % 2 ^ 32
  · -- the last place is cut
    have hmin : min q ((s.length : ℤ) - 1) = s.length - 1 := min_eq_right (by omega)
    have hnot : ¬ Uncut s.length start stop := by
      rintro ⟨h1, h2, -⟩
      have hsame : q = stop := by
        rw [← hq, place, if_neg (by omega), max_eq_left (by omega)]
      omega
    rw [if_pos hcut, hmin]
    refine iff_of_true ?_ hnot
    by_cases hempty : (s.length : ℤ) - 1 < p
    · rw [if_pos hempty, emptybulk, Int.toNat_of_nonpos (by omega), take_zero]
    · rw [if_neg hempty, if_pos (by omega), Option.map_some]
      congr 3
      omega
  · rw [if_neg hcut]
    by_cases hin : q < s.length
    · -- the last place is in the string
      have hmin : min q ((s.length : ℤ) - 1) = q := min_eq_left (by omega)
      have hnot : ¬ Uncut s.length start stop := by
        rintro ⟨h1, -, -⟩
        have hsame : q = stop := by
          rw [← hq, place, if_neg (by omega), max_eq_left (by omega)]
        omega
      refine iff_of_true ?_ hnot
      by_cases hempty : q < p
      · rw [if_pos hempty, emptybulk, Int.toNat_of_nonpos (by omega), take_zero]
      · rw [if_neg hempty, if_pos (by omega), Option.map_some]
        congr 3
        omega
    · -- it is behind the end, and the range goes there unless it is empty
      have hsame : q = stop := by
        by_cases hneg : stop < 0
        · rw [place, if_pos hneg] at hq
          omega
        · rw [← hq, place, if_neg hneg, max_eq_left (by omega)]
      by_cases hempty : q < p
      · refine iff_of_true ?_ ?_
        · rw [if_pos hempty, emptybulk, Int.toNat_of_nonpos (by omega), take_zero]
        · rintro ⟨-, -, h3⟩
          omega
      · rw [if_neg hempty, if_neg (by omega), Option.map_none]
        refine iff_of_false (fun h => (by cases h)) (not_not.2 ⟨by omega, ?_, ?_⟩)
        · omega
        · omega

theorem getrange_tail : getrangeCommand ⟨[49], by decide⟩ ⟨[45, 49], by decide⟩ (some (.string (.raw [97, 98, 99]))) = some (.bulk [98, 99]) :=
  ((getrange_iff (.raw [97, 98, 99]) (by decide) (by decide : getLongLongFromObject [49] = some 1)
    (by decide : getLongLongFromObject [45, 49] = some (-1))).2 (by unfold Uncut; decide)).trans (by decide)

/-- `GETRANGE key 0 4294967296` of a string with one byte. -/
theorem getrange_uncut : getrangeCommand ⟨[48], by decide⟩ ⟨[52, 50, 57, 52, 57, 54, 55, 50, 57, 54], by decide⟩ (some (.string (.raw [97]))) ≠
    some (.bulk (rangeOf [97] 0 4294967296)) := by
  decide

def textOf : Option Obj → Option (List UInt8)
  | none => some []
  | some (.string o) => some (getDecodedObject o)
  | some .other => none

def Reply.isError : Reply → Bool
  | .error _ => true
  | .wrongtypeerr => true
  | _ => false

/-- A string longer by zeros, if need be, with `value` from `offset` on. -/
def writtenAt (v : List UInt8) (offset : ℕ) (value : List UInt8) : List UInt8 :=
  (List.range (max v.length (if value = [] then 0 else offset + value.length))).map fun i =>
    if offset ≤ i ∧ i < offset + value.length then (value[i - offset]?).getD 0 else (v[i]?).getD 0

/-- Bit number `i`, the highest one of the first byte being the first. -/
def bitAt (v : List UInt8) (i : ℕ) : Bool := ((v[i / 8]?).getD 0).toNat.testBit (7 - i % 8)

inductive Write
  | setrange (offset value : Sds)
  | append (value : Sds)
  | setbit (offset on : Sds)

def Write.run (o : Option Obj) : Write → Option Outcome
  | .setrange offset value => setrangeCommand offset value o
  | .append value => some (appendCommand value o)
  | .setbit offset on => setbitCommand offset on o

/-- The bytes that a command is given; their length fits a bulk of the protocol. -/
def Write.given : Write → List UInt8
  | .setrange _ value => value.1
  | .append value => value.1
  | .setbit _ _ => []

/-- What a command makes of a string: its arguments are numbers where they have to be. -/
def Write.Makes (v v' : List UInt8) : Write → Prop
  | .setrange offset value => ∃ n : ℕ, getLongLongFromObject offset.1 = some (n : ℤ) ∧ v' = writtenAt v n value.1
  | .append value => v' = writtenAt v v.length value.1
  | .setbit offset on => ∃ (n : ℕ) (b : Bool), getLongLongFromObject offset.1 = some (n : ℤ) ∧ getLongLongFromObject on.1 = some (if b = true then 1 else 0) ∧
      v'.length = max v.length (n / 8 + 1) ∧ ∀ i, bitAt v' i = if i = n then b else bitAt v i

/-- **An error, and the key is as it was**, or what was to be written, in at most 512 MB. -/
def Write.Right (w : Write) (o : Option Obj) (r : Outcome) : Prop :=
  (r.reply.isError = true ∧ r.value = o) ∨ ∃ v v', textOf o = some v ∧ textOf r.value = some v' ∧ w.Makes v v' ∧ v'.length ≤ stringMax

/-- The end of what `SETRANGE` would write is no `long long`. -/
def Write.Wraps (o : Option Obj) : Write → Prop
  | .setrange offset value => o ≠ some .other ∧ value.1 ≠ [] ∧ ∃ n : ℕ, getLongLongFromObject offset.1 = some (n : ℤ) ∧ 2 ^ 63 ≤ n + value.1.length
  | .append _ => False
  | .setbit _ _ => False

def grown (v : List UInt8) (len : ℕ) : List UInt8 := v ++ List.replicate (len - v.length) 0

theorem sdsgrowzero_eq (v : List UInt8) (hlen : len < 2 ^ 63) : sdsgrowzero v len = some (grown v len) := by
  unfold sdsgrowzero grown
  by_cases h : len ≤ v.length
  · rw [if_pos h, Nat.sub_eq_zero_of_le h, replicate_zero, append_nil]
  · rw [if_neg h, if_pos hlen]

theorem length_grown (v : List UInt8) (len : ℕ) : (grown v len).length = max v.length len := by
  rw [grown, length_append, length_replicate]
  omega

theorem grown_getD (v : List UInt8) (len i : ℕ) : ((grown v len)[i]?).getD 0 = (v[i]?).getD 0 := by
  rw [grown, List.getElem?_append]
  by_cases h : i < v.length
  · rw [if_pos h]
  · rw [if_neg h, List.getElem?_replicate, List.getElem?_eq_none (not_lt.1 h)]
    split <;> rfl

theorem writtenAt_getElem? (v : List UInt8) (offset : ℕ) (value : List UInt8) {i : ℕ} (hi : i < max v.length (if value = [] then 0 else offset + value.length)) :
    (writtenAt v offset value)[i]? = some (if offset ≤ i ∧ i < offset + value.length then (value[i - offset]?).getD 0 else (v[i]?).getD 0) := by
  rw [writtenAt, List.getElem?_map, List.getElem?_range hi]
  rfl

theorem length_writtenAt (v : List UInt8) (offset : ℕ) (value : List UInt8) :
    (writtenAt v offset value).length = max v.length (if value = [] then 0 else offset + value.length) := by
  rw [writtenAt, length_map, length_range]

variable {value : List UInt8}

theorem write_grown (v : List UInt8) (offset : ℕ) (hne : value ≠ []) :
    Memory.write (grown v (offset + value.length)) offset value = some (writtenAt v offset value) := by
  have hlen := length_grown v (offset + value.length)
  have hwritten := length_writtenAt v offset value
  have hat := fun i => @writtenAt_getElem? v offset value i
  rw [if_neg hne] at hwritten hat
  rw [Memory.write, if_pos (by omega)]
  congr 1
  apply ext_getElem?
  intro i
  by_cases hi : i < max v.length (offset + value.length)
  · rw [hat i hi]
    by_cases hin : offset ≤ i ∧ i < offset + value.length
    · rw [if_pos hin, append_assoc, List.getElem?_append_right (by rw [length_take]; omega), length_take,
        min_eq_left (by omega), List.getElem?_append_left (by omega), List.getElem?_eq_getElem (by omega)]
      rfl
    · have hsame : (grown v (offset + value.length))[i]? = some ((v[i]?).getD 0) := by
        rw [← grown_getD v (offset + value.length) i, List.getElem?_eq_getElem (by omega)]
        rfl
      rw [if_neg hin, ← hsame]
      by_cases hfront : i < offset
      · rw [append_assoc, List.getElem?_append_left (by rw [length_take]; omega), List.getElem?_take, if_pos hfront]
      · rw [List.getElem?_append_right (by rw [length_append, length_take]; omega), List.getElem?_drop, length_append, length_take]
        congr 1
        omega
  · have hall : ((grown v (offset + value.length)).take offset ++ value ++ (grown v (offset + value.length)).drop (offset + value.length)).length =
        max v.length (offset + value.length) := by
      rw [length_append, length_append, length_take, length_drop]
      omega
    rw [List.getElem?_eq_none (by omega), List.getElem?_eq_none (by omega)]

theorem writtenAt_nil (v : List UInt8) (offset : ℕ) : writtenAt v offset [] = v := by
  have hlen := length_writtenAt v offset []
  have hat := fun i => @writtenAt_getElem? v offset [] i
  rw [if_pos rfl] at hlen hat
  apply ext_getElem?
  intro i
  by_cases hi : i < v.length
  · rw [hat i (by omega), if_neg (by rw [length_nil]; omega), List.getElem?_eq_getElem hi]
    rfl
  · rw [List.getElem?_eq_none (by omega), List.getElem?_eq_none (by omega)]

theorem writtenAt_end (v value : List UInt8) : writtenAt v v.length value = v ++ value := by
  by_cases hempty : value = []
  · rw [hempty, writtenAt_nil, append_nil]
  have hlen := length_writtenAt v v.length value
  have hat := fun i => @writtenAt_getElem? v v.length value i
  rw [if_neg hempty] at hlen hat
  apply ext_getElem?
  intro i
  by_cases hi : i < v.length + value.length
  · rw [hat i (by omega)]
    by_cases hfront : i < v.length
    · rw [if_neg (by omega), List.getElem?_append_left hfront, List.getElem?_eq_getElem hfront]
      rfl
    · rw [if_pos (by omega), List.getElem?_append_right (by omega), List.getElem?_eq_getElem (by omega)]
      rfl
  · rw [List.getElem?_eq_none (by omega), List.getElem?_eq_none (by rw [length_append]; omega)]

variable {size : ℕ}

theorem checkStringLength_eq (hsize : size < 2 ^ 63) : checkStringLength size = decide (size ≤ stringMax) := by
  have hb : (size : ℤ).bmod (2 ^ 64) = size := Int.bmod_eq_of_le (by omega) (by omega)
  unfold checkStringLength
  rw [hb, decide_eq_decide]
  omega

theorem checkStringLength_wraps (hlow : 2 ^ 63 ≤ size) (hhigh : size < 2 ^ 64) : checkStringLength size = true := by
  have hmod : (size : ℤ) % ((2 ^ 64 : ℕ) : ℤ) = size := Int.emod_eq_of_lt (by omega) (by omega)
  have hb : (size : ℤ).bmod (2 ^ 64) = size - ((2 ^ 64 : ℕ) : ℤ) := by
    rw [Int.bmod_def, hmod, if_neg (by omega)]
  have hmax : stringMax = 536870912 := rfl
  unfold checkStringLength
  rw [hb, decide_eq_true_eq, hmax]
  omega

variable {v : List UInt8} {offset : ℕ}

theorem setrangeCopy_eq (hne : value ≠ []) (hfit : offset + value.length < 2 ^ 63) :
    setrangeCopy v offset value = some ⟨.integer (writtenAt v offset value).length, some (.string (.raw (writtenAt v offset value)))⟩ := by
  rw [setrangeCopy, Nat.mod_eq_of_lt (by omega), sdsgrowzero_eq v hfit, Option.bind_some, write_grown v offset hne]
  rfl

theorem setrangeCopy_wraps (hv : v.length < 2 ^ 63) (hlow : 2 ^ 63 ≤ offset + value.length)
    (hhigh : offset + value.length < 2 ^ 64) : setrangeCopy v offset value = none := by
  rw [setrangeCopy, Nat.mod_eq_of_lt hhigh, sdsgrowzero, if_neg (by omega), if_neg (by omega)]
  rfl

variable {n : ℕ} {o : Option Obj}

theorem setrangeCommand_eq {offsetArg : Sds} (value : Sds) (hn : getLongLongFromObject offsetArg.1 = some (n : ℤ))
    (ho : textOf o = some v) (hv : v.length ≤ stringMax) : setrangeCommand offsetArg value o =
      if value.1 = [] then some ⟨.integer v.length, o⟩ else if checkStringLength (n + value.1.length) = false then some ⟨tooLong, o⟩
      else setrangeCopy v n value.1 := by
  have hrange := (getLongLongFromObject_range hn).2
  have hmod : (n + value.1.length) % 2 ^ 64 = n + value.1.length := Nat.mod_eq_of_lt (by omega)
  cases o with
  | none =>
    obtain rfl : [] = v := Option.some.inj ho
    unfold setrangeCommand
    rw [hn]
    dsimp only
    rw [if_neg (by omega), Int.toNat_natCast, hmod]
    rfl
  | some o =>
    cases o with
    | other => cases ho
    | string o =>
      obtain rfl : getDecodedObject o = v := Option.some.inj ho
      unfold setrangeCommand
      rw [hn]
      dsimp only
      rw [if_neg (by omega), Int.toNat_natCast, hmod]
      rfl

variable {offset value : Sds}

theorem setrange_right (ho : ∀ v, textOf o = some v → v.length ≤ stringMax) :
    (∃ r, setrangeCommand offset value o = some r ∧ (Write.setrange offset value).Right o r) ↔ ¬ (Write.setrange offset value).Wraps o := by
  have hmax : stringMax = 536870912 := rfl
  have herror : ∀ reply : Reply, reply.isError = true → setrangeCommand offset value o = some ⟨reply, o⟩ → ¬ (Write.setrange offset value).Wraps o →
      ((∃ r, setrangeCommand offset value o = some r ∧ (Write.setrange offset value).Right o r) ↔ ¬ (Write.setrange offset value).Wraps o) :=
    fun _ hreply hcmd hnot => iff_of_true ⟨_, hcmd, Or.inl ⟨hreply, rfl⟩⟩ hnot
  cases hoffset : getLongLongFromObject offset.1 with
  | none =>
    refine herror notInteger rfl (by unfold setrangeCommand; rw [hoffset]) ?_
    rintro ⟨-, -, n, hn, -⟩
    rw [hoffset] at hn
    cases hn
  | some z =>
    by_cases hneg : z < 0
    · refine herror (.error "offset is out of range") rfl (by unfold setrangeCommand; rw [hoffset]; exact if_pos hneg) ?_
      rintro ⟨-, -, n, hn, -⟩
      rw [hoffset] at hn
      have := Option.some.inj hn
      omega
    obtain ⟨n, rfl⟩ := Int.eq_ofNat_of_zero_le (not_lt.1 hneg)
    cases htext : textOf o with
    | none =>
      have hother : o = some .other := by
        cases o with
        | none => cases htext
        | some o =>
          cases o with
          | other => rfl
          | string o => cases htext
      refine herror .wrongtypeerr rfl (by unfold setrangeCommand; rw [hoffset, hother]; exact if_neg hneg) ?_
      rintro ⟨h, -⟩
      exact h hother
    | some v =>
      have hv := ho v htext
      have hcmd := setrangeCommand_eq value hoffset htext hv
      have hn := (getLongLongFromObject_range hoffset).2
      by_cases hempty : value.1 = []
      · -- there is nothing to write
        rw [if_pos hempty] at hcmd
        refine iff_of_true ⟨_, hcmd, Or.inr ⟨v, v, htext, htext, ⟨n, hoffset, ?_⟩, hv⟩⟩ fun h => h.2.1 hempty
        rw [hempty, writtenAt_nil]
      rw [if_neg hempty] at hcmd
      by_cases hwraps : 2 ^ 63 ≤ n + value.1.length
      · -- the check does not see the length, and there is no such block
        rw [if_neg (by rw [checkStringLength_wraps hwraps (by omega)]; exact Bool.false_ne_true.symm), setrangeCopy_wraps (by omega) hwraps (by omega)] at hcmd
        rw [hcmd]
        refine iff_of_false (fun ⟨_, h, _⟩ => by cases h) (not_not.2 ⟨?_, hempty, n, hoffset, hwraps⟩)
        rintro rfl
        cases htext
      have hnot : ¬ (Write.setrange offset value).Wraps o := by
        rintro ⟨-, -, m, hm, hwrap⟩
        have hmn : ((m : ℕ) : ℤ) = n := Option.some.inj (hm.symm.trans hoffset)
        omega
      rw [checkStringLength_eq (by omega)] at hcmd
      by_cases hfit : n + value.1.length ≤ stringMax
      · rw [if_neg (by rw [decide_eq_true hfit]; exact Bool.false_ne_true.symm), setrangeCopy_eq hempty (by omega)] at hcmd
        refine iff_of_true ⟨_, hcmd, Or.inr ⟨v, writtenAt v n value.1, htext, rfl, ⟨n, hoffset, rfl⟩, ?_⟩⟩ hnot
        rw [length_writtenAt, if_neg hempty]
        exact max_le hv hfit
      · rw [if_pos (decide_eq_false hfit)] at hcmd
        exact herror tooLong rfl hcmd hnot

theorem append_right (ho : ∀ v, textOf o = some v → v.length ≤ stringMax) (hvalue : value.1.length ≤ stringMax) :
    (Write.append value).Right o (appendCommand value o) := by
  have hmax : stringMax = 536870912 := rfl
  cases o with
  | none =>
    refine Or.inr ⟨[], value.1, rfl, congrArg some (tryObjectEncoding_decoded false (.raw value.1)), ?_, hvalue⟩
    exact (writtenAt_end [] value.1).symm
  | some o =>
    cases o with
    | other => exact Or.inl ⟨rfl, rfl⟩
    | string o =>
      have hv := ho _ rfl
      unfold appendCommand
      dsimp only
      rw [stringObjectLen, checkStringLength_eq (by omega)]
      by_cases hfit : (getDecodedObject o).length + value.1.length ≤ stringMax
      · rw [if_neg (by rw [decide_eq_true hfit]; exact Bool.false_ne_true.symm)]
        refine Or.inr ⟨_, _, rfl, rfl, (writtenAt_end _ _).symm, ?_⟩
        rw [getDecodedObject, length_append]
        exact hfit
      · rw [if_pos (decide_eq_false hfit)]
        exact Or.inl ⟨rfl, rfl⟩

theorem testBit_putBit (b : UInt8) {k j : ℕ} (hk : k < 8) (hj : j < 8) (on : Bool) :
    (putBit b k (if on = true then 1 else 0)).toNat.testBit j = if j = k then on else b.toNat.testBit j := by
  have hbit : ∀ x : UInt8, x.toNat.testBit j = x.toBitVec.getLsbD j := fun x => rfl
  have htable : ∀ k j : Fin 8, ((1 : UInt8) <<< UInt8.ofNat k).toBitVec.getLsbD j = decide (j = k) := by decide
  have hone : ((1 : UInt8) <<< UInt8.ofNat k).toBitVec.getLsbD j = decide (j = k) := by
    rw [htable ⟨k, hk⟩ ⟨j, hj⟩]
    exact decide_eq_decide.2 Fin.mk.inj_iff
  unfold putBit
  generalize (1 : UInt8) <<< UInt8.ofNat k = mask at hone ⊢
  have hset : (if (if on = true then (1 : ℤ) else 0) = 1 then mask else 0).toBitVec.getLsbD j = (on && decide (j = k)) := by
    cases on with
    | true => exact hone
    | false => exact BitVec.getLsbD_zero
  rw [hbit, hbit, UInt8.toBitVec_or, UInt8.toBitVec_and, UInt8.toBitVec_not, BitVec.getLsbD_or, BitVec.getLsbD_and, BitVec.getLsbD_not, hone, hset]
  by_cases hjk : j = k
  · rw [if_pos hjk, decide_eq_true hjk]
    simp
  · rw [if_neg hjk, decide_eq_false hjk, decide_eq_true hj]
    simp

theorem setbitByte_spec (v : List UInt8) (hn : n / 8 < stringMax) (on : Bool) : ∃ reply v',
    setbitByte v n (if on = true then 1 else 0) = some ⟨reply, some (.string (.raw v'))⟩ ∧ v'.length = max v.length (n / 8 + 1) ∧
      ∀ i, bitAt v' i = if i = n then on else bitAt v i := by
  have hmax : stringMax = 536870912 := rfl
  have hlen := length_grown v (n / 8 + 1)
  have hbyte : n / 8 < (grown v (n / 8 + 1)).length := by omega
  obtain ⟨byteval, hval⟩ : ∃ byteval, (grown v (n / 8 + 1))[n / 8]? = some byteval := ⟨_, List.getElem?_eq_getElem hbyte⟩
  have hold : (v[n / 8]?).getD 0 = byteval := by rw [← grown_getD v (n / 8 + 1), hval, Option.getD_some]
  refine ⟨if byteval &&& 1 <<< UInt8.ofNat (7 - n % 8) = 0 then czero else cone,
    (grown v (n / 8 + 1)).set (n / 8) (putBit byteval (7 - n % 8) (if on = true then 1 else 0)), ?_, ?_, ?_⟩
  · unfold setbitByte
    dsimp only
    rw [sdsgrowzero_eq v (by omega), Option.bind_some, hval]
    rfl
  · rw [length_set, hlen]
  · intro i
    unfold bitAt
    by_cases hsame : i / 8 = n / 8
    · rw [hsame, List.getElem?_set_self hbyte, Option.getD_some, hold, testBit_putBit byteval (by omega) (by omega) on]
      by_cases hi : i = n
      · rw [if_pos (by omega), if_pos hi]
      · rw [if_neg (by omega), if_neg hi]
    · rw [List.getElem?_set_ne (Ne.symm hsame), grown_getD, if_neg (fun h => hsame (by rw [h]))]

theorem setbit_right {on : Sds} (ho : ∀ v, textOf o = some v → v.length ≤ stringMax) :
    ∃ r, setbitCommand offset on o = some r ∧ (Write.setbit offset on).Right o r := by
  have hmax : stringMax = 536870912 := rfl
  unfold setbitCommand getBitOffsetFromArgument
  cases hoffset : getLongLongFromObject offset.1 with
  | none => exact ⟨_, rfl, Or.inl ⟨rfl, rfl⟩⟩
  | some z =>
    rw [Option.bind_some]
    by_cases hrange : z < 0 ∨ 512 * 1024 * 1024 ≤ z / 8
    · rw [if_pos hrange]
      exact ⟨_, rfl, Or.inl ⟨rfl, rfl⟩⟩
    rw [if_neg hrange]
    obtain ⟨n, rfl⟩ := Int.eq_ofNat_of_zero_le (not_lt.1 fun h => hrange (Or.inl h))
    cases hon : getLongLongFromObject on.1 with
    | none => exact ⟨_, rfl, Or.inl ⟨rfl, rfl⟩⟩
    | some b =>
      dsimp only
      by_cases hbit : b = 0 ∨ b = 1
      swap
      · rw [if_pos hbit]
        exact ⟨_, rfl, Or.inl ⟨rfl, rfl⟩⟩
      rw [if_neg (not_not.2 hbit), Int.toNat_natCast]
      obtain ⟨bit, rfl⟩ : ∃ bit : Bool, b = if bit = true then 1 else 0 := by
        rcases hbit with rfl | rfl
        · exact ⟨false, rfl⟩
        · exact ⟨true, rfl⟩
      have hstore : ∀ v, textOf o = some v → ∃ r, setbitByte v n (if bit = true then 1 else 0) = some r ∧ (Write.setbit offset on).Right o r := by
        intro v hv
        obtain ⟨reply, v', h1, h2, h3⟩ := setbitByte_spec v (n := n) (by omega) bit
        have hlen := ho v hv
        exact ⟨_, h1, Or.inr ⟨v, v', hv, rfl, ⟨n, bit, hoffset, hon, h2, h3⟩, by omega⟩⟩
      cases o with
      | none => exact hstore [] rfl
      | some o =>
        cases o with
        | other => exact ⟨_, rfl, Or.inl ⟨rfl, rfl⟩⟩
        | string o => exact hstore _ rfl

theorem writes_iff (w : Write) (o : Option Obj) (ho : ∀ v, textOf o = some v → v.length ≤ stringMax) (hgiven : w.given.length ≤ stringMax) :
    (∃ r, w.run o = some r ∧ w.Right o r) ↔ ¬ w.Wraps o := by
  cases w with
  | setrange offset value => exact setrange_right ho
  | append value => exact iff_of_true ⟨_, rfl, append_right ho hgiven⟩ id
  | setbit offset on => exact iff_of_true (setbit_right ho) id

/-- A byte is written behind the end of a string. -/
theorem writes_abc : ∃ r, (Write.setrange ⟨[53], by decide⟩ ⟨[100], by decide⟩).run (some (.string (.raw [97, 98, 99]))) = some r ∧
    (Write.setrange ⟨[53], by decide⟩ ⟨[100], by decide⟩).Right (some (.string (.raw [97, 98, 99]))) r := by
  refine (writes_iff (.setrange ⟨[53], by decide⟩ ⟨[100], by decide⟩) (some (.string (.raw [97, 98, 99]))) ?_ (by decide)).2 ?_
  · rintro v hv
    obtain rfl : [97, 98, 99] = v := Option.some.inj hv
    decide
  · rintro ⟨-, -, n, hn, h⟩
    have hfive : getLongLongFromObject [53] = some 5 := by decide
    have hn5 : ((n : ℕ) : ℤ) = 5 := Option.some.inj (hn.symm.trans hfive)
    change 2 ^ 63 ≤ n + 1 at h
    omega

/-- `SETRANGE key 9223372036854775807 x` for a key that is not there. -/
theorem setrange_wraps : ¬ ∃ r, (Write.setrange ⟨ll2string (2 ^ 63 - 1), by decide⟩ ⟨[120], by decide⟩).run none = some r ∧
    (Write.setrange ⟨ll2string (2 ^ 63 - 1), by decide⟩ ⟨[120], by decide⟩).Right none r := by
  have hrun : (Write.setrange ⟨ll2string (2 ^ 63 - 1), by decide⟩ ⟨[120], by decide⟩).run none = none := by decide
  rintro ⟨r, hr, -⟩
  rw [hrun] at hr
  cases hr

inductive Incr
  | incr
  | decr
  | incrby (d : Sds)
  | decrby (d : Sds)

@[grind =] def Incr.run (o : Option Obj) : Incr → Outcome
  | .incr => incrCommand o
  | .decr => decrCommand o
  | .incrby d => incrbyCommand d o
  | .decrby d => decrbyCommand d o

@[grind =] def Incr.amount : Incr → Option ℤ
  | .incr => some 1
  | .decr => some (-1)
  | .incrby d => getLongLongFromObject d.1
  | .decrby d => (getLongLongFromObject d.1).map fun d => -d

def numberOf : Option Obj → Option ℤ
  | none => some 0
  | some (.string o) => objectNumber o
  | some .other => none

/-- **The sum is stored and replied**, if it is a `long long`; else there is an error, and the key is as it was. -/
def Exact (o : Option Obj) (sum : ℤ) (r : Outcome) : Prop :=
  if -2 ^ 63 ≤ sum ∧ sum < 2 ^ 63 then r.reply = .integer sum ∧ numberOf r.value = some sum else r.reply.isError = true ∧ r.value = o

def Incr.NoOpposite : Incr → Prop
  | .decrby d => getLongLongFromObject d.1 = some (-2 ^ 63)
  | _ => False

variable {v : ℤ}

theorem numberOf_range (h : numberOf o = some v) : -2 ^ 63 ≤ v ∧ v < 2 ^ 63 := by
  cases o with
  | none =>
    obtain rfl : 0 = v := Option.some.inj h
    omega
  | some o =>
    cases o with
    | other => cases h
    | string o =>
      cases o with
      | raw s => exact getLongLongFromObject_range h
      | int n =>
        obtain rfl : n.1 = v := Option.some.inj h
        exact n.2

variable {old incr : ℤ}

theorem wouldOverflow_iff (hold : -2 ^ 63 ≤ old ∧ old < 2 ^ 63) (hincr : -2 ^ 63 ≤ incr ∧ incr < 2 ^ 63) :
    wouldOverflow old incr = true ↔ ¬ (-2 ^ 63 ≤ old + incr ∧ old + incr < 2 ^ 63) := by
  rw [wouldOverflow, decide_eq_true_eq]
  omega

theorem incrDecrAdd_exact (hold : -2 ^ 63 ≤ old ∧ old < 2 ^ 63) (hincr : -2 ^ 63 ≤ incr ∧ incr < 2 ^ 63) :
    Exact o (old + incr) (incrDecrAdd incr old o) := by
  have hover := wouldOverflow_iff hold hincr
  unfold Exact incrDecrAdd
  by_cases hsum : -2 ^ 63 ≤ old + incr ∧ old + incr < 2 ^ 63
  · have hb : (old + incr).bmod (2 ^ 64) = old + incr := Int.bmod_eq_of_le (by omega) (by omega)
    rw [if_pos hsum, if_neg (by rw [hover]; exact not_not.2 hsum), hb, createStringObjectFromLongLong, dif_pos hsum]
    exact ⟨rfl, rfl⟩
  · rw [if_neg hsum, if_pos (hover.2 hsum)]
    exact ⟨rfl, rfl⟩

theorem incrDecrCommand_eq (h : numberOf o = some v) (incr : ℤ) : incrDecrCommand incr o = incrDecrAdd incr v o := by
  cases o with
  | none =>
    obtain rfl : 0 = v := Option.some.inj h
    rfl
  | some o =>
    cases o with
    | other => cases h
    | string o =>
      unfold incrDecrCommand
      dsimp only
      have ho : objectNumber o = some v := h
      rw [ho]

theorem incrDecrCommand_exact (h : numberOf o = some v) (hincr : -2 ^ 63 ≤ incr ∧ incr < 2 ^ 63) :
    Exact o (v + incr) (incrDecrCommand incr o) := by
  rw [incrDecrCommand_eq h]
  exact incrDecrAdd_exact (numberOf_range h) hincr

/-- The opposite of the smallest number is itself, so the sum is wrong, or it is missing. -/
theorem incrDecrCommand_smallest (h : numberOf o = some v) : ¬ Exact o (v - -2 ^ 63) (incrDecrCommand (-2 ^ 63) o) := by
  have hv := numberOf_range h
  have hover := wouldOverflow_iff hv (show (-2 ^ 63 : ℤ) ≤ -2 ^ 63 ∧ (-2 ^ 63 : ℤ) < 2 ^ 63 by omega)
  rw [incrDecrCommand_eq h]
  unfold Exact incrDecrAdd
  by_cases hneg : v < 0
  · rw [if_pos (by omega), if_pos (hover.2 (by omega))]
    rintro ⟨hreply, -⟩
    cases hreply
  · rw [if_neg (by omega), if_neg (by rw [hover]; omega)]
    rintro ⟨hreply, -⟩
    cases hreply

theorem incr_iff (c : Incr) {o : Option Obj} {v d : ℤ} (ho : numberOf o = some v) (hd : c.amount = some d) :
    Exact o (v + d) (c.run o) ↔ ¬ c.NoOpposite := by
  cases c with
  | incr =>
    obtain rfl : 1 = d := Option.some.inj hd
    exact iff_of_true (incrDecrCommand_exact ho (by omega)) id
  | decr =>
    obtain rfl : -1 = d := Option.some.inj hd
    exact iff_of_true (incrDecrCommand_exact ho (by omega)) id
  | incrby arg =>
    have harg : getLongLongFromObject arg.1 = some d := hd
    refine iff_of_true ?_ id
    rw [Incr.run, incrbyCommand, harg]
    exact incrDecrCommand_exact ho (getLongLongFromObject_range harg)
  | decrby arg =>
    obtain ⟨n, harg, rfl⟩ := Option.map_eq_some_iff.1 hd
    have hrange := getLongLongFromObject_range harg
    have hrun : (Incr.decrby arg).run o = incrDecrCommand ((-n).bmod (2 ^ 64)) o := by
      rw [Incr.run, decrbyCommand, harg]
    rw [hrun]
    by_cases hsmall : n = -2 ^ 63
    · subst hsmall
      refine iff_of_false ?_ (not_not.2 harg)
      have hb : (- -2 ^ 63 : ℤ).bmod (2 ^ 64) = -2 ^ 63 := by decide
      exact incrDecrCommand_smallest ho
    · have hb : (-n).bmod (2 ^ 64) = -n := Int.bmod_eq_of_le (by omega) (by omega)
      rw [hb]
      exact iff_of_true (incrDecrCommand_exact ho (by omega)) fun h => hsmall (Option.some.inj (harg.symm.trans h))

theorem decrby_one : Exact (some (.string (.int ⟨2 ^ 63 - 1, by decide⟩))) (2 ^ 63 - 1 + -1)
    ((Incr.decrby ⟨[49], by decide⟩).run (some (.string (.int ⟨2 ^ 63 - 1, by decide⟩)))) := by
  have hone : getLongLongFromObject [49] = some 1 := by decide
  refine (incr_iff (.decrby ⟨[49], by decide⟩) (o := some (.string (.int ⟨2 ^ 63 - 1, by decide⟩))) rfl (by rw [Incr.amount, hone]; rfl)).2 fun h => ?_
  cases h

/-- `DECRBY key -9223372036854775808`, where the key is not there and where it holds -1. -/
theorem decrby_smallest : ¬ Exact none (0 + 2 ^ 63) ((Incr.decrby ⟨ll2string (-2 ^ 63), by decide⟩).run none) ∧
    ¬ Exact (some (.string (.int ⟨-1, by decide⟩))) (-1 + 2 ^ 63)
      ((Incr.decrby ⟨ll2string (-2 ^ 63), by decide⟩).run (some (.string (.int ⟨-1, by decide⟩)))) := by
  unfold Exact
  decide

end KVStores.Redis.StringType
