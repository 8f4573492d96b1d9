import KVStores.Lib.CopyBack
import KVStores.Redis.Lzf

/-!
# LZF there and back

The compressor closes a run of literals in arrears: the byte in front of it is skipped when it begins, and taken back when the run
stays empty. So the invariant of its loops has what is complete, which the decompressor turns into the input up to the start of
the run, one cell more, and the run.
-/

namespace KVStores.Redis.Lzf

open List

open CopyBack

variable {outLen n len : ℕ} {ref : ℤ} {rest rest' out out' : Bytes}

theorem copyLiteral_eq (hrest : n ≤ rest.length) (hout : out.length + n ≤ outLen) :
    copyLiteral outLen n rest out = .ok (rest.drop n, out ++ rest.take n) := by
  induction n generalizing rest out with
  | zero => rw [copyLiteral, drop_zero, take_zero, append_nil]
  | succ n ih =>
    obtain - | ⟨c, rest⟩ := rest
    · exact absurd hrest (Nat.not_succ_le_zero n)
    have hroom : (out ++ [c]).length + n ≤ outLen := by
      rw [length_append, length_singleton]
      omega
    rw [copyLiteral, if_pos (by omega), ih (Nat.le_of_succ_le_succ hrest) hroom, drop_succ_cons, take_succ_cons, append_assoc,
      singleton_append]

theorem copyRef_eq {ref : ℕ} (hback : ref < out.length) (hout : out.length + n ≤ outLen) :
    copyRef outLen n ref out = .ok (copyBack (out.length - ref) n out) := by
  induction n generalizing ref out with
  | zero => rfl
  | succ n ih =>
    have hpush : out ++ [out.getD ref 0] = pushBack (out.length - ref) out := by
      rw [pushBack, Nat.sub_sub_self hback.le, getD_eq_getElem?_getD, List.getElem?_eq_getElem hback]
      rfl
    have hlen : (pushBack (out.length - ref) out).length = out.length + 1 := length_pushBack (by omega) (by omega)
    have hdist : out.length + 1 - (ref + 1) = out.length - ref := by omega
    have hrest := @ih (pushBack (out.length - ref) out) (ref + 1) (by omega) (by omega)
    rw [hlen, hdist] at hrest
    rw [copyRef, if_pos ⟨by omega, by omega, by omega⟩, Int.toNat_natCast, hpush]
    exact hrest

def Safe (outLen : ℕ) (r : Except Stop (Bytes × Bytes)) : Prop := r ≠ .error .fault ∧ ∀ p, r = .ok p → p.2.length ≤ outLen

theorem safe_error {e : Stop} (h : e ≠ .fault) : Safe outLen (.error e) :=
  ⟨fun he => h (Except.error.inj he), fun _ hp => by cases hp⟩

theorem safe_ok {p : Bytes × Bytes} (h : p.2.length ≤ outLen) : Safe outLen (.ok p) :=
  ⟨fun he => (by cases he), fun q hq => by cases hq; exact h⟩

theorem backReference_safe (hrest : rest ≠ []) (href : ref < out.length) : Safe outLen (backReference outLen len ref rest out) := by
  obtain ⟨c, rest, rfl⟩ := exists_cons_of_ne_nil hrest
  rw [backReference]
  by_cases hbig : outLen < out.length + len + 2
  · rw [if_pos hbig]
    exact safe_error (by decide)
  rw [if_neg hbig]
  by_cases hneg : ref - c.toNat < 0
  · rw [if_pos hneg]
    exact safe_error (by decide)
  obtain ⟨r, hr⟩ := Int.eq_ofNat_of_zero_le (not_lt.mp hneg)
  have hback : r < out.length := by omega
  rw [hr, copyRef_eq hback (by omega)]
  refine safe_ok ?_
  rw [length_copyBack (by omega) (by omega)]
  omega

/-- **One round is safe**: where there is a byte of the input, it ends with one of the two errors, or it has written inside the output. -/
theorem decodeOne_safe (hrest : rest ≠ []) : Safe outLen (decodeOne outLen rest out) := by
  obtain ⟨c, rest, rfl⟩ := exists_cons_of_ne_nil hrest
  rw [decodeOne.eq_def]
  dsimp only
  by_cases hctrl : c.toNat < 2 ^ 5
  · rw [if_pos hctrl]
    by_cases hbig : outLen < out.length + (c.toNat + 1)
    · rw [if_pos hbig]
      exact safe_error (by decide)
    rw [if_neg hbig]
    by_cases hshort : rest.length < c.toNat + 1
    · rw [if_pos hshort]
      exact safe_error (by decide)
    rw [if_neg hshort, copyLiteral_eq (not_lt.mp hshort) (not_lt.mp hbig)]
    refine safe_ok ?_
    rw [length_append, length_take]
    omega
  · rw [if_neg hctrl]
    obtain - | ⟨d, rest⟩ := rest
    · exact safe_error (by decide)
    have href : (out.length : ℤ) - (c.toNat % 2 ^ 5 * 2 ^ 8 : ℕ) - 1 < out.length := by omega
    dsimp only
    by_cases hseven : c.toNat / 2 ^ 5 = 7
    · rw [if_pos hseven]
      by_cases hnil : rest = []
      · rw [if_pos hnil]
        exact safe_error (by decide)
      · rw [if_neg hnil]
        exact backReference_safe hnil href
    · rw [if_neg hseven]
      exact backReference_safe (cons_ne_nil d rest) href

theorem decompressLoop_safe (hrest : rest ≠ []) :
    decompressLoop outLen rest out ≠ .error .fault ∧ ∀ final, decompressLoop outLen rest out = .ok final → final.length ≤ outLen := by
  induction hn : rest.length using Nat.strong_induction_on generalizing rest out with
  | _ n ih =>
    have hround := @decodeOne_safe outLen rest out hrest
    rw [decompressLoop]
    cases hstep : decodeOne outLen rest out with
    | error e =>
      rw [hstep] at hround
      exact ⟨fun h => hround.1 (congrArg Except.error (Except.error.inj h)), fun _ h => by cases h⟩
    | ok p =>
      rw [hstep] at hround
      dsimp only
      by_cases hnil : p.1 = []
      · rw [if_pos hnil]
        exact ⟨fun h => (by cases h), fun final h => by cases h; exact hround.2 p rfl⟩
      · rw [if_neg hnil]
        exact ih p.1.length (hn ▸ decodeOne_rest hstep) hnil rfl

/-- The loop asks whether there is any input left. -/
def resume (outLen : ℕ) (rest out : Bytes) : Except Stop Bytes := if rest = [] then .ok out else decompressLoop outLen rest out

theorem decompressLoop_step (h : decodeOne outLen rest out = .ok (rest', out')) : decompressLoop outLen rest out = resume outLen rest' out' := by
  rw [decompressLoop, h]
  rfl

variable {input code code' : Bytes} {a b c : ℕ}

/-- The decompressor goes over this code from one place of the input to another. -/
def Emits (input : Bytes) (a b : ℕ) (code : Bytes) : Prop :=
  ∀ rest, resume input.length (code ++ rest) (input.take a) = resume input.length rest (input.take b)

theorem Emits.refl (input : Bytes) (a : ℕ) : Emits input a a [] := fun _ => rfl

theorem Emits.trans (h : Emits input a b code) (h' : Emits input b c code') : Emits input a c (code ++ code') := by
  intro rest
  rw [append_assoc, h, h']

theorem emits_of_round {head : UInt8} {tail : Bytes}
    (h : ∀ rest, decodeOne input.length (head :: tail ++ rest) (input.take a) = .ok (rest, input.take b)) : Emits input a b (head :: tail) := by
  intro rest
  rw [← decompressLoop_step (h rest)]
  exact if_neg (cons_ne_nil head _)

theorem length_take_input (h : a ≤ input.length) : (input.take a).length = a := by
  rw [length_take, Nat.min_eq_left h]

theorem emits_run {n : ℕ} (hpos : 0 < n) (hn : n ≤ MAX_LIT) (hin : a + n ≤ input.length) :
    Emits input a (a + n) ((UInt8.ofNat n - 1) :: (input.drop a).take n) := by
  rw [MAX_LIT] at hn
  refine emits_of_round fun rest => ?_
  have hctrl : (UInt8.ofNat n - 1).toNat + 1 = n := by
    have hof : (UInt8.ofNat n).toNat = n := UInt8.toNat_ofNat_of_lt' (by show n < 256; omega)
    rw [UInt8.toNat_sub_of_le _ _ (UInt8.le_iff_toNat_le.mpr (by rw [hof]; exact hpos)), hof]
    exact Nat.sub_add_cancel hpos
  have hlen : ((input.drop a).take n).length = n := by
    rw [length_take, length_drop]
    omega
  have hout := @length_take_input input a (by omega)
  rw [cons_append, decodeOne.eq_def]
  dsimp only
  rw [if_pos (by omega), hctrl, hout, if_neg (by omega), if_neg (by rw [length_append]; omega), copyLiteral_eq (by rw [length_append]; omega) (by omega),
    drop_append_of_le_length hlen.ge, take_append_of_le_length hlen.ge, take_of_length_le hlen.le, drop_of_length_le hlen.le,
    nil_append, ← take_add]

def matchCode (off len : ℕ) : Bytes :=
  if len < 7 then [UInt8.ofNat (off / 2 ^ 8 + len * 2 ^ 5), UInt8.ofNat off]
  else [UInt8.ofNat (off / 2 ^ 8 + 7 * 2 ^ 5), UInt8.ofNat (len - 7), UInt8.ofNat off]

theorem backReference_eq {off p hi : ℕ} (hoff : off = hi * 2 ^ 8 + off % 2 ^ 8) (hp : p + off + 1 = a) (hin : a + (len + 2) ≤ input.length)
    (h : ∀ k < len + 2, input[p + k]? = input[a + k]?) (rest : Bytes) :
    backReference input.length len ((a : ℤ) - (hi * 2 ^ 8 : ℕ) - 1) (UInt8.ofNat off :: rest) (input.take a) = .ok (rest, input.take (a + (len + 2))) := by
  have hlen := @length_take_input input a (by omega)
  have href : (a : ℤ) - (hi * 2 ^ 8 : ℕ) - 1 - (UInt8.ofNat off).toNat = p := by
    rw [UInt8.toNat_ofNat']
    omega
  have hcopy := @copyBack_repeat UInt8 input p a (len + 2) [] (by omega) hin h
  rw [nil_append, nil_append] at hcopy
  rw [backReference, hlen, if_neg (by omega), href, if_neg (by omega), copyRef_eq (by omega) (by omega), hlen, hcopy]
  rfl

theorem emits_match {p off : ℕ} (hpos : 0 < len) (hlen : len ≤ 262) (hoff : off < 2 ^ 13) (hp : p + off + 1 = a) (hin : a + (len + 2) ≤ input.length)
    (h : ∀ k < len + 2, input[p + k]? = input[a + k]?) : Emits input a (a + (len + 2)) (matchCode off len) := by
  have hsplit : off = off / 2 ^ 8 * 2 ^ 8 + off % 2 ^ 8 := by omega
  have hhead : ∀ l ≤ 7, (UInt8.ofNat (off / 2 ^ 8 + l * 2 ^ 5)).toNat = off / 2 ^ 8 + l * 2 ^ 5 := by
    intro l hl
    rw [UInt8.toNat_ofNat']
    omega
  have hout := @length_take_input input a (by omega)
  have hback := @backReference_eq len input a off p (off / 2 ^ 8) hsplit hp hin h
  rw [matchCode]
  by_cases hshort : len < 7
  · rw [if_pos hshort]
    refine emits_of_round fun rest => ?_
    have hl : (off / 2 ^ 8 + len * 2 ^ 5) / 2 ^ 5 = len := by omega
    have hm : (off / 2 ^ 8 + len * 2 ^ 5) % 2 ^ 5 = off / 2 ^ 8 := by omega
    rw [cons_append, cons_append, nil_append, decodeOne.eq_def]
    dsimp only
    rw [hhead len hshort.le, if_neg (by omega), hl, hm, if_neg hshort.ne, hout]
    exact hback rest
  · rw [if_neg hshort]
    refine emits_of_round fun rest => ?_
    have hl : (off / 2 ^ 8 + 7 * 2 ^ 5) / 2 ^ 5 = 7 := by omega
    have hm : (off / 2 ^ 8 + 7 * 2 ^ 5) % 2 ^ 5 = off / 2 ^ 8 := by omega
    have hlong : 7 + (UInt8.ofNat (len - 7)).toNat = len := by
      rw [UInt8.toNat_ofNat']
      omega
    rw [cons_append, cons_append, cons_append, nil_append, decodeOne.eq_def]
    dsimp only
    rw [hhead 7 (Nat.le_refl 7), if_neg (by omega), hl, hm, if_pos rfl, if_neg (cons_ne_nil _ _), hlong, hout]
    exact hback rest

variable {p ip maxlen : ℕ}

def Agree (input : Bytes) (p q n : ℕ) : Prop := ∀ k < n, input.getD (p + k) 0 = input.getD (q + k) 0

theorem Agree.snoc (h : Agree input p ip n) (hn : input.getD (p + n) 0 = input.getD (ip + n) 0) : Agree input p ip (n + 1) := by
  intro k hk
  obtain hk | rfl := Nat.lt_succ_iff_lt_or_eq.mp hk
  · exact h k hk
  · exact hn

theorem Agree.getElem? (h : Agree input p ip n) (hback : p < ip) (hin : ip + n ≤ input.length) : ∀ k < n, input[p + k]? = input[ip + k]? := by
  intro k hk
  have hbyte := h k hk
  rw [getD_eq_getElem?_getD, getD_eq_getElem?_getD, List.getElem?_eq_getElem (by omega), List.getElem?_eq_getElem (by omega)] at hbyte
  rw [List.getElem?_eq_getElem (by omega), List.getElem?_eq_getElem (by omega)]
  exact congrArg some hbyte

theorem unrolled_spec {k : ℕ} (h : Agree input p ip (len + 1)) :
    ((unrolled input p ip k len).2 = true ∧ len < (unrolled input p ip k len).1 ∧ (unrolled input p ip k len).1 ≤ len + k ∧
      Agree input p ip (unrolled input p ip k len).1) ∨
    (unrolled input p ip k len = (len + k, false) ∧ Agree input p ip (len + k + 1)) := by
  induction k generalizing len with
  | zero => exact Or.inr ⟨rfl, h⟩
  | succ k ih =>
    rw [unrolled]
    by_cases hbyte : input.getD (p + (len + 1)) 0 = input.getD (ip + (len + 1)) 0
    · rw [if_neg (not_not_intro hbyte)]
      obtain ⟨hlast, hlow, hhigh, hagree⟩ | ⟨hlast, hagree⟩ := ih (h.snoc hbyte)
      · exact Or.inl ⟨hlast, by omega, by omega, hagree⟩
      · exact Or.inr ⟨by rw [hlast, Nat.add_assoc, Nat.add_comm 1 k], by rwa [Nat.add_assoc len, Nat.add_comm 1 k] at hagree⟩
    · rw [if_pos hbyte]
      exact Or.inl ⟨rfl, Nat.lt_succ_self len, by omega, h⟩

theorem matchTail_spec (h : Agree input p ip (len + 1)) :
    len + 1 ≤ matchTail input p ip maxlen len ∧ matchTail input p ip maxlen len ≤ max maxlen (len + 1) ∧ Agree input p ip (matchTail input p ip maxlen len) := by
  induction hn : maxlen - len using Nat.strong_induction_on generalizing len with
  | _ n ih =>
    rw [matchTail]
    by_cases hmore : len + 1 < maxlen ∧ input.getD (p + (len + 1)) 0 = input.getD (ip + (len + 1)) 0
    · rw [if_pos hmore]
      obtain ⟨hlow, hhigh, hagree⟩ := ih (maxlen - (len + 1)) (by omega) (h.snoc hmore.2) rfl
      exact ⟨by omega, by omega, hagree⟩
    · rw [if_neg hmore]
      exact ⟨Nat.le_refl _, Nat.le_max_right _ _, h⟩

/-- **The match stays inside the input**, although the sixteen comparisons do not look at `maxlen`. -/
theorem matchLength_spec (hip : ip + 4 < input.length) (h : Agree input p ip 3) :
    let L := matchLength input p ip (min (input.length - ip - 2) MAX_REF)
    3 ≤ L ∧ L ≤ 264 ∧ ip + L ≤ input.length ∧ Agree input p ip L := by
  have hmax : min (input.length - ip - 2) MAX_REF ≤ 264 := Nat.min_le_right _ _
  have hin : min (input.length - ip - 2) MAX_REF ≤ input.length - ip - 2 := Nat.min_le_left _ _
  have hthree : 3 ≤ min (input.length - ip - 2) MAX_REF := Nat.le_min.mpr ⟨by omega, by rw [MAX_REF]; omega⟩
  generalize min (input.length - ip - 2) MAX_REF = maxlen at hmax hin hthree
  rw [matchLength]
  dsimp only
  by_cases hlong : 16 < maxlen
  · rw [if_pos hlong]
    obtain ⟨hlast, hlow, hhigh, hagree⟩ | ⟨hlast, hagree⟩ := @unrolled_spec 2 input p ip 16 h
    · rw [if_pos hlast]
      exact ⟨by omega, by omega, by omega, hagree⟩
    · obtain ⟨hlow, hhigh, htail⟩ := @matchTail_spec (2 + 16) input p ip maxlen hagree
      rw [hlast, if_neg Bool.noConfusion]
      dsimp only
      exact ⟨by omega, by omega, by omega, htail⟩
  · obtain ⟨hlow, hhigh, htail⟩ := @matchTail_spec 2 input p ip maxlen h
    rw [if_neg hlong]
    exact ⟨hlow, by omega, by omega, htail⟩

variable {garbage : ℕ → UInt8} {done pend : Bytes} {hole : UInt8} {top : ℕ} {s : State}

theorem stop_cells : (Out.mk (done ++ hole :: pend) top).stop pend.length = ⟨done ++ (UInt8.ofNat pend.length - 1) :: pend, max top (done.length + 1)⟩ := by
  have hplace : (done ++ hole :: pend).length - pend.length - 1 = done.length := by
    rw [length_append, length_cons]
    omega
  have hend : (done ++ hole :: pend).length - pend.length = done.length + 1 := by
    rw [length_append, length_cons]
    omega
  rw [Out.stop, hplace, hend, set_append_right _ _ (Nat.le_refl _), Nat.sub_self, set_cons_zero]

def pending (input : Bytes) (s : State) : Bytes := (input.drop (s.ip - s.lit)).take s.lit

/-- **The invariant**: what is in front of the open run is complete, and its bytes are as in the input. Only a cell that has been
skipped, and not been written, may lie behind the limit. -/
structure Inv (input : Bytes) (outLen : ℕ) (s : State) : Prop where
  lit_le : s.lit ≤ s.ip
  ip_le : s.ip ≤ input.length
  short : s.lit < MAX_LIT
  shape : ∃ done hole, s.out.cells = done ++ hole :: pending input s ∧ Emits input 0 (s.ip - s.lit) done
  top_le : s.out.top ≤ outLen
  room : s.out.cells.length ≤ outLen + 1
  opened : 0 < s.lit → s.out.cells.length ≤ outLen

theorem Inv.length_pending (h : Inv input outLen s) : (pending input s).length = s.lit := by
  have hle := h.lit_le
  have hin := h.ip_le
  rw [pending, length_take, length_drop]
  omega

theorem Inv.close (h : Inv input outLen s) :
    let o := (s.out.stop s.lit).undo s.lit
    Emits input 0 s.ip o.cells ∧ o.top ≤ max outLen s.out.cells.length ∧ o.cells.length ≤ s.out.cells.length ∧ s.out.cells.length ≤ o.cells.length + 1 := by
  obtain ⟨done, hole, hcells, hdone⟩ := h.shape
  have hlen := h.length_pending
  have hstop : s.out.stop s.lit = ⟨done ++ (UInt8.ofNat s.lit - 1) :: pending input s, max s.out.top (done.length + 1)⟩ := by
    have hout : s.out = ⟨done ++ hole :: pending input s, s.out.top⟩ := by rw [← hcells]
    rw [hout, ← hlen, stop_cells]
  have htop : max s.out.top (done.length + 1) ≤ max outLen s.out.cells.length := by
    have hle := h.top_le
    rw [hcells, length_append, length_cons]
    omega
  rw [hstop, hcells]
  by_cases hzero : s.lit = 0
  · have hnil : pending input s = [] := eq_nil_of_length_eq_zero (hlen.trans hzero)
    rw [Out.undo, if_pos hzero]
    rw [hnil, dropLast_concat]
    rw [hzero, Nat.sub_zero] at hdone
    rw [hcells, hnil] at htop
    refine ⟨hdone, htop, ?_, ?_⟩ <;> rw [length_append, length_singleton]
    exact Nat.le_succ _
  · have hrun := @emits_run input (s.ip - s.lit) s.lit (Nat.pos_of_ne_zero hzero) h.short.le (by have := h.ip_le; have := h.lit_le; omega)
    rw [Nat.sub_add_cancel h.lit_le] at hrun
    rw [Out.undo, if_neg hzero]
    dsimp only
    rw [hcells] at htop
    have hsame : (done ++ (UInt8.ofNat s.lit - 1) :: pending input s).length = (done ++ hole :: pending input s).length := by
      rw [length_append, length_append]
      rfl
    exact ⟨hdone.trans hrun, htop, hsame.le, hsame ▸ Nat.le_succ _⟩

theorem Inv.opening {ip : ℕ} {o : Out} {hval : UInt32} {htab : Table} (hip : ip ≤ input.length) (hcode : Emits input 0 ip o.cells)
    (htop : o.top ≤ outLen) (hroom : o.cells.length ≤ outLen) :
    Inv input outLen { ip := ip, lit := 0, out := o.start garbage, hval := hval, htab := htab } where
  lit_le := Nat.zero_le _
  ip_le := hip
  short := Nat.two_pow_pos 5
  shape := ⟨o.cells, garbage o.cells.length, rfl, hcode⟩
  top_le := htop
  room := by
    rw [Out.start, length_append]
    exact Nat.succ_le_succ hroom
  opened h := absurd h (Nat.lt_irrefl 0)

/-- **A literal byte** keeps the invariant where there is room for it. The output grows by one byte, and one more when the run is full. -/
theorem literal_inv (h : Inv input outLen s) (hip : s.ip < input.length) (hroom : s.out.cells.length < outLen) :
    Inv input outLen (literal input garbage s) ∧ (literal input garbage s).ip = s.ip + 1 ∧
      (literal input garbage s).out.cells.length = s.out.cells.length + 1 + (s.lit + 1) / MAX_LIT ∧
      (literal input garbage s).lit = (s.lit + 1) % MAX_LIT := by
  obtain ⟨done, hole, hcells, hdone⟩ := h.shape
  have hlen := h.length_pending
  have hle := h.lit_le
  have hshort := h.short
  have hfrom : s.ip + 1 - (s.lit + 1) = s.ip - s.lit := by omega
  have hpush : pending input s ++ [input.getD s.ip 0] = (input.drop (s.ip - s.lit)).take (s.lit + 1) := by
    have hplace : s.ip - s.lit + s.lit = s.ip := Nat.sub_add_cancel hle
    rw [pending, take_add_one, List.getElem?_drop, hplace, getD_eq_getElem?_getD, List.getElem?_eq_getElem hip]
    rfl
  have hput : (s.out.put (input.getD s.ip 0)).cells = done ++ hole :: (pending input s ++ [input.getD s.ip 0]) := by
    rw [Out.put, hcells, append_assoc, cons_append]
  have hlenPut : (s.out.put (input.getD s.ip 0)).cells.length = s.out.cells.length + 1 := by
    rw [Out.put, length_append]
    rfl
  have htop : (s.out.put (input.getD s.ip 0)).top ≤ outLen := Nat.max_le.mpr ⟨h.top_le, hroom⟩
  rw [literal]
  by_cases hfull : s.lit + 1 = MAX_LIT
  · have hpend : (pending input s ++ [input.getD s.ip 0]).length = s.lit + 1 := by rw [length_append, hlen, length_singleton]
    have hstop : (s.out.put (input.getD s.ip 0)).stop (s.lit + 1) =
        ⟨done ++ (UInt8.ofNat (s.lit + 1) - 1) :: (pending input s ++ [input.getD s.ip 0]), max (s.out.put (input.getD s.ip 0)).top (done.length + 1)⟩ := by
      have hout : s.out.put (input.getD s.ip 0) = ⟨done ++ hole :: (pending input s ++ [input.getD s.ip 0]), (s.out.put (input.getD s.ip 0)).top⟩ := by
        rw [← hput]
      rw [hout, ← hpend, stop_cells]
    have hlenStop : (done ++ (UInt8.ofNat (s.lit + 1) - 1) :: (pending input s ++ [input.getD s.ip 0])).length = s.out.cells.length + 1 := by
      rw [← hlenPut, hput, length_append, length_append]
      rfl
    have hrun := @emits_run input (s.ip - s.lit) (s.lit + 1) (Nat.succ_pos _) hfull.le (by omega)
    have hto : s.ip - s.lit + (s.lit + 1) = s.ip + 1 := by omega
    rw [hto, ← hpush] at hrun
    have hdoneLen : done.length + 1 ≤ outLen := by
      rw [length_append, length_cons] at hlenStop
      omega
    rw [if_pos hfull, hstop]
    refine ⟨Inv.opening hip (hdone.trans hrun) (Nat.max_le.mpr ⟨htop, hdoneLen⟩) (by rw [hlenStop]; exact hroom), rfl, ?_, ?_⟩
    · rw [Out.start, length_append, hlenStop, hfull, MAX_LIT, Nat.div_self (Nat.two_pow_pos 5), length_singleton]
    · rw [hfull, Nat.mod_self]
  · have hlt : s.lit + 1 < MAX_LIT := lt_of_le_of_ne hshort hfull
    rw [if_neg hfull, Nat.div_eq_of_lt hlt, Nat.mod_eq_of_lt hlt]
    refine ⟨⟨Nat.succ_le_succ hle, hip, hlt, ⟨done, hole, ?_, ?_⟩, htop, ?_, fun _ => ?_⟩, rfl, hlenPut, rfl⟩
    · rw [hput, hpush, pending]
      rw [hfrom]
    · dsimp only
      rwa [hfrom]
    · rw [hlenPut]
      exact Nat.succ_le_succ hroom.le
    · dsimp only
      rw [hlenPut]
      exact hroom

theorem putMatch_cells (o : Out) (off len : ℕ) : (putMatch o off len).cells = o.cells ++ matchCode off len := by
  rw [putMatch, matchCode]
  by_cases hshort : len < 7
  · rw [if_pos hshort, if_pos hshort, Out.put, Out.put, append_assoc]
    rfl
  · rw [if_neg hshort, if_neg hshort, Out.put, Out.put, Out.put, append_assoc, append_assoc]
    rfl

theorem putMatch_top (o : Out) (off len : ℕ) : (putMatch o off len).top ≤ max o.top (o.cells.length + 3) := by
  rw [putMatch]
  by_cases hshort : len < 7
  · rw [if_pos hshort]
    simp only [Out.put, length_append, length_singleton]
    omega
  · rw [if_neg hshort]
    simp only [Out.put, length_append, length_singleton]
    omega

theorem length_matchCode (off len : ℕ) : (matchCode off len).length ≤ 3 := by
  rw [matchCode]
  by_cases hshort : len < 7
  · rw [if_pos hshort]
    exact Nat.le_succ 2
  · rw [if_neg hshort]
    exact Nat.le_refl 3

/-- **A match** is at a place behind `ip` that is near enough, and its length fits in what is left and in the code. -/
theorem match_emits {ref : ℤ} (hmatch : isMatch input ip ref) :
    let len := matchLength input ref.toNat ip (min (input.length - ip - 2) MAX_REF) - 2
    ip + 1 + (len + 1) ≤ input.length ∧ Emits input ip (ip + 1 + (len + 1)) (matchCode (ip - ref.toNat - 1) len) := by
  obtain ⟨hback, hoff, hin, hpos, h0, h1, h2⟩ := hmatch
  rw [MAX_OFF] at hoff
  obtain ⟨p, rfl⟩ := Int.eq_ofNat_of_zero_le hpos.le
  rw [Int.toNat_natCast] at h0 h1 h2 ⊢
  have hthree : Agree input p ip 3 := by
    have hzero : Agree input p ip 0 := fun k hk => absurd hk (Nat.not_lt_zero k)
    exact ((hzero.snoc h0).snoc h1).snoc h2
  obtain ⟨hlow, hhigh, hend, hagree⟩ := matchLength_spec hin hthree
  generalize matchLength input p ip (min (input.length - ip - 2) MAX_REF) = L at hlow hhigh hend hagree
  obtain ⟨len, rfl⟩ := Nat.exists_eq_add_of_le' (show 2 ≤ L by omega)
  have hto : ip + 1 + (len + 1) = ip + (len + 2) := by omega
  dsimp only
  rw [Nat.add_sub_cancel, hto]
  exact ⟨hend, emits_match (by omega) (by omega) (by omega) (by omega) hend (hagree.getElem? (by omega) hend)⟩

/-- The invariant at the end of the input that the main loop looks at, and at most one byte behind the limit in any case. -/
theorem mainLoop_inv (h : Inv input outLen s) : ((mainLoop input outLen garbage s).2 = true →
      Inv input outLen (mainLoop input outLen garbage s).1 ∧ input.length ≤ (mainLoop input outLen garbage s).1.ip + 2) ∧
    (mainLoop input outLen garbage s).1.out.top ≤ outLen + 1 := by
  induction hn : input.length - s.ip using Nat.strong_induction_on generalizing s with
  | _ n ih =>
    rw [mainLoop]
    dsimp only
    by_cases hend : s.ip + 2 < input.length
    · rw [if_pos hend]
      by_cases hmatch : isMatch input s.ip (s.htab (idx (next s.hval input s.ip)))
      · obtain ⟨hcode, htop, hle, hge⟩ := h.close
        obtain ⟨hin, hemits⟩ := match_emits hmatch
        have hlimit : max outLen s.out.cells.length ≤ outLen + 1 := Nat.max_le.mpr ⟨Nat.le_succ _, h.room⟩
        rw [if_pos hmatch]
        by_cases hroom : outLen ≤ ((s.out.stop s.lit).undo s.lit).cells.length + 3 + 1
        · rw [if_pos hroom]
          exact ⟨fun hfalse => Bool.noConfusion hfalse, htop.trans hlimit⟩
        rw [if_neg hroom]
        have hall := hcode.trans hemits
        rw [← putMatch_cells] at hall
        have htop' := putMatch_top ((s.out.stop s.lit).undo s.lit) (s.ip - (s.htab (idx (next s.hval input s.ip))).toNat - 1)
          (matchLength input (s.htab (idx (next s.hval input s.ip))).toNat s.ip (min (input.length - s.ip - 2) MAX_REF) - 2)
        have hlen' : (putMatch ((s.out.stop s.lit).undo s.lit) (s.ip - (s.htab (idx (next s.hval input s.ip))).toNat - 1)
            (matchLength input (s.htab (idx (next s.hval input s.ip))).toNat s.ip (min (input.length - s.ip - 2) MAX_REF) - 2)).cells.length ≤ outLen := by
          have hthree := length_matchCode (s.ip - (s.htab (idx (next s.hval input s.ip))).toNat - 1)
            (matchLength input (s.htab (idx (next s.hval input s.ip))).toNat s.ip (min (input.length - s.ip - 2) MAX_REF) - 2)
          rw [putMatch_cells, length_append]
          omega
        generalize putMatch _ _ _ = o at hall htop' hlen' ⊢
        generalize matchLength _ _ _ _ - 2 = len at hin hall ⊢
        by_cases hlast : input.length ≤ s.ip + 1 + (len + 1) + 2
        · rw [if_pos hlast]
          exact ⟨fun _ => ⟨Inv.opening hin hall (by omega) hlen', hlast⟩, by show o.top ≤ outLen + 1; omega⟩
        · rw [if_neg hlast]
          exact ih _ (by dsimp only; omega) (Inv.opening hin hall (by omega) hlen') rfl
      · rw [if_neg hmatch]
        by_cases hfull : outLen ≤ s.out.cells.length
        · rw [if_pos hfull]
          exact ⟨fun hfalse => Bool.noConfusion hfalse, Nat.le_succ_of_le h.top_le⟩
        rw [if_neg hfull]
        have hsame : Inv input outLen { s with hval := next s.hval input s.ip, htab := Function.update s.htab (idx (next s.hval input s.ip)) s.ip } :=
          ⟨h.lit_le, h.ip_le, h.short, h.shape, h.top_le, h.room, h.opened⟩
        obtain ⟨hinv, hip, -, -⟩ := @literal_inv outLen input garbage _ hsame (by dsimp only; omega) (not_le.mp hfull)
        exact ih _ (by rw [hip]; dsimp only; omega) hinv rfl
    · rw [if_neg hend]
      exact ⟨fun _ => ⟨h, not_lt.mp hend⟩, Nat.le_succ_of_le h.top_le⟩

theorem restLoop_inv (h : Inv input outLen s) (hroom : s.out.cells.length + (input.length - s.ip) + (s.lit + (input.length - s.ip)) / MAX_LIT ≤ outLen) :
    Inv input outLen (restLoop input garbage s) ∧ (restLoop input garbage s).ip = input.length ∧ (restLoop input garbage s).out.cells.length ≤ outLen := by
  have hfits : s.out.cells.length + (input.length - s.ip) ≤ outLen := le_trans (Nat.le_add_right _ _) hroom
  induction hn : input.length - s.ip generalizing s with
  | zero =>
    have hle := h.ip_le
    rw [restLoop, if_neg (by omega)]
    exact ⟨h, by omega, by omega⟩
  | succ n ih =>
    obtain ⟨hinv, hip, hlen, hlit⟩ := @literal_inv outLen input garbage s h (by omega) (by omega)
    have hleft : input.length - (literal input garbage s).ip = n := by omega
    have hsplit : (s.lit + (n + 1)) / MAX_LIT = (s.lit + 1) / MAX_LIT + ((s.lit + 1) % MAX_LIT + n) / MAX_LIT := by
      rw [MAX_LIT]
      omega
    have hroom' : (literal input garbage s).out.cells.length + (input.length - (literal input garbage s).ip) +
        ((literal input garbage s).lit + (input.length - (literal input garbage s).ip)) / MAX_LIT ≤ outLen := by
      rw [hn, hsplit] at hroom
      rw [hleft, hlen, hlit]
      omega
    rw [restLoop, if_pos (by omega)]
    exact ih hinv hroom' (le_trans (Nat.le_add_right _ _) hroom') hleft

variable {htab : Table}

theorem compress_start (outLen : ℕ) : Inv input outLen ⟨0, 0, (Out.mk [] 0).start garbage, frst input 0, htab⟩ :=
  Inv.opening (Nat.zero_le _) (Emits.refl input 0) (Nat.zero_le _) (Nat.zero_le _)

theorem decompress_of_emits {code : Bytes} (hpos : code ≠ []) (h : Emits input 0 input.length code) : lzf_decompress code input.length = .ok input := by
  have hrun := h []
  rw [append_nil, resume, if_neg hpos, resume, if_pos rfl, take_length] at hrun
  exact hrun

theorem lzf_compress_spec (input : Bytes) (outLen : ℕ) (garbage : ℕ → UInt8) (htab : Table) :
    ((lzf_compress input outLen garbage htab).1 = 0 ∨
      (lzf_compress input outLen garbage htab).1 = (lzf_compress input outLen garbage htab).2.cells.length ∧
        (lzf_compress input outLen garbage htab).2.top ≤ outLen ∧ Emits input 0 input.length (lzf_compress input outLen garbage htab).2.cells) ∧
    (lzf_compress input outLen garbage htab).2.top ≤ outLen + 1 := by
  rw [lzf_compress]
  by_cases hnone : input.length = 0 ∨ outLen = 0
  · rw [if_pos hnone]
    exact ⟨Or.inl rfl, Nat.zero_le _⟩
  rw [if_neg hnone]
  have hstart : Inv input outLen ⟨0, 0, (Out.mk [] 0).start garbage, frst input 0, htab⟩ := compress_start outLen
  obtain ⟨hmain, htop⟩ := @mainLoop_inv outLen input garbage _ hstart
  generalize mainLoop _ _ _ _ = r at hmain htop
  by_cases hfail : r.2 = false
  · rw [if_pos hfail]
    exact ⟨Or.inl rfl, htop⟩
  rw [if_neg hfail]
  by_cases hsmall : outLen < r.1.out.cells.length + 3
  · rw [if_pos hsmall]
    exact ⟨Or.inl rfl, htop⟩
  rw [if_neg hsmall]
  obtain ⟨hinv, hlast⟩ := hmain (Bool.of_not_eq_false hfail)
  have hshort := hinv.short
  -- of at most two bytes only one can fill a run
  have hrest : r.1.out.cells.length + (input.length - r.1.ip) + (r.1.lit + (input.length - r.1.ip)) / MAX_LIT ≤ outLen := by
    rw [MAX_LIT] at hshort ⊢
    omega
  obtain ⟨hinv', hip, hlen⟩ := @restLoop_inv outLen input garbage _ hinv hrest
  obtain ⟨hcode, htop', -, -⟩ := hinv'.close
  rw [hip] at hcode
  rw [Nat.max_eq_left hlen] at htop'
  exact ⟨Or.inr ⟨rfl, htop', hcode⟩, Nat.le_succ_of_le htop'⟩

/-- **LZF there and back.** The compressor returns 0, or its code is within the limit and is decompressed to the input; and the decompressor
is safe for every input and every limit: it ends, without a fault, and has written no more than it may. -/
theorem lzf : (∀ (input : Bytes) (outLen : ℕ) (garbage : ℕ → UInt8) (htab : Table), 2 ≤ input.length →
      (lzf_compress input outLen garbage htab).1 = 0 ∨
        (lzf_compress input outLen garbage htab).1 = (lzf_compress input outLen garbage htab).2.cells.length ∧
        (lzf_compress input outLen garbage htab).2.top ≤ outLen ∧
        lzf_decompress (lzf_compress input outLen garbage htab).2.cells input.length = .ok input) ∧
    ∀ (data : Bytes) (outLen : ℕ), data ≠ [] →
      lzf_decompress data outLen ≠ .error .fault ∧ ∀ out, lzf_decompress data outLen = .ok out → out.length ≤ outLen := by
  refine ⟨fun input outLen garbage htab _ => ?_, fun data outLen hdata => decompressLoop_safe hdata⟩
  obtain hzero | ⟨hret, htop, hcode⟩ := (lzf_compress_spec input outLen garbage htab).1
  · exact Or.inl hzero
  by_cases hnil : (lzf_compress input outLen garbage htab).2.cells = []
  · exact Or.inl (by rw [hret, hnil]; rfl)
  · exact Or.inr ⟨hret, htop, decompress_of_emits hnil hcode⟩

theorem lzf_two : ((lzf_compress [7, 7] 8 (fun _ => 1) fun _ => 5).1 = 0 ∨
      (lzf_compress [7, 7] 8 (fun _ => 1) fun _ => 5).1 = (lzf_compress [7, 7] 8 (fun _ => 1) fun _ => 5).2.cells.length ∧
      (lzf_compress [7, 7] 8 (fun _ => 1) fun _ => 5).2.top ≤ 8 ∧
      lzf_decompress (lzf_compress [7, 7] 8 (fun _ => 1) fun _ => 5).2.cells [(7 : UInt8), 7].length = .ok [7, 7]) ∧
    lzf_decompress [0x20, 0] 4 ≠ .error .fault ∧ ∀ out, lzf_decompress [0x20, 0] 4 = .ok out → out.length ≤ 4 :=
  ⟨lzf.1 [7, 7] 8 (fun _ => 1) (fun _ => 5) (by decide), lzf.2 [0x20, 0] 4 (by decide)⟩

end KVStores.Redis.Lzf
