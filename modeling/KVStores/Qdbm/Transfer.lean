import Mathlib.Data.List.GetD
import KVStores.Lib.ByteFile
import KVStores.Qdbm.ExportRun

/-!
# Reading and writing a Depot file

`dpread`, `dpseekread` and `dpseekwrite` (`depot.c`), for whatever the operating system answers to each call of `read` and `write`.

* `dpread_iff`: **`dpread` is right exactly when no more bytes come behind an interruption** (`Undisturbed`): it takes the -1 for a number of bytes.

The places are `int`s, which 2^31 interruptions in a row could overflow; that is left out.
-/

namespace KVStores.Qdbm

open List Option

/-- What the system answers to a call of `read`: at most so many bytes and one more, nothing, or an error. -/
inductive ReadAnswer
  | upTo (k : ℕ)
  | endOfFile
  | interrupted
  | error
deriving DecidableEq

/-- The bytes that are stored, with their places from the start of the buffer on, and the value that is returned, unless an answer is waited for. -/
abbrev ReadRun : Type := List (ℤ × Bytes) × Option ℤ

/-- `dpread`, when the descriptor is at `pos` and the loop at `i`. -/
@[grind =] def dpread (file : ByteFile) (size : ℕ) : List ReadAnswer → ℕ → ℤ → ReadRun
  | [], _, i => ([], if i < size then none else some i)
  | a :: answers, pos, i =>
    if i < size then
      match a with
      | .upTo k =>
        let bytes := file.read pos (min (k + 1) (size - i).toNat)
        if bytes = [] then ([], some i)
        else
          let r := dpread file size answers (pos + bytes.length) (i + bytes.length)
          ((i, bytes) :: r.1, r.2)
      | .endOfFile => ([], some i)
      | .interrupted => dpread file size answers pos (i + -1)
      | .error => ([], some (-1))
    else ([], some i)

/-- `dpseekread`: what is stored, and whether it succeeds; `seeks` is whether `lseek` does. -/
def dpseekread (seeks : Bool) (answers : List ReadAnswer) (file : ByteFile) (off size : ℕ) : List (ℤ × Bytes) × Option Bool :=
  if seeks = false then ([], some false)
  else
    let r := dpread file size answers off 0
    (r.1, r.2.map fun n => decide (n = (size : ℤ)))

/-- `dpseekwrite`: the file, and whether it succeeds; a negative offset is for the end of the file. -/
def dpseekwrite (seeks : Bool) (os : List WriteResult) (file : ByteFile) (off : ℤ) (buf : Bytes) : Option (ByteFile × Bool) :=
  if buf = [] then some (file, true)
  else if seeks = false then some (file, false)
  else
    (dpwrite os buf [] 0).map fun r =>
      (if r.2.1 = [] then file else file.write (if off < 0 then file.size else off.toNat) r.2.1, decide (r.1 = (buf.length : ℤ)))

def stored (stores : List (ℤ × Bytes)) : Bytes := (stores.map Prod.snd).flatten

@[grind =] def InOrder : ℤ → List (ℤ × Bytes) → Prop
  | _, [] => True
  | i, (place, bytes) :: stores => place = i ∧ InOrder (i + bytes.length) stores

/-- **A right transfer into the buffer**, when `i` bytes are there: the next bytes of the file, one behind the other and inside of the buffer, as many as the
value says that is returned. -/
structure ReadRight (file : ByteFile) (size pos i : ℕ) (r : ReadRun) : Prop where
  inOrder : InOrder i r.1
  inside : ∀ s ∈ r.1, 0 ≤ s.1 ∧ s.1 + s.2.length ≤ size
  bytes : stored r.1 = file.read pos (stored r.1).length
  value : ∀ n, r.2 = some n → n = -1 ∨ n = i + (stored r.1).length

/-- Behind an interruption: no more bytes come, and the end of the file is taken for an error. -/
@[grind =] def Silent (left i : ℕ) : List ReadAnswer → ℕ → Prop
  | [], _ => True
  | .error :: _, _ => True
  | .interrupted :: answers, interruptions => Silent left i answers (interruptions + 1)
  | .endOfFile :: _, interruptions => interruptions = i + 1
  | .upTo _ :: _, interruptions => left = 0 ∧ interruptions = i + 1

/-- **The answers with which `dpread` is right**, with `left` bytes left in the file and `i` of `size` read: there is no interruption, or no more bytes come
behind the first. -/
@[grind =] def Undisturbed (size : ℕ) : List ReadAnswer → ℕ → ℕ → Prop
  | [], _, _ => True
  | .error :: _, _, _ => True
  | .endOfFile :: _, _, _ => True
  | .interrupted :: answers, left, i => size ≤ i ∨ Silent left i answers 1
  | .upTo k :: answers, left, i =>
    size ≤ i ∨ left = 0 ∨ Undisturbed size answers (left - min (k + 1) (size - i)) (i + min (min (k + 1) (size - i)) left)

variable {file : ByteFile} {size pos i : ℕ} {answers : List ReadAnswer}

theorem stored_cons (s : ℤ × Bytes) (stores : List (ℤ × Bytes)) : stored (s :: stores) = s.2 ++ stored stores := rfl

theorem read_nil_iff {n : ℕ} (hn : 0 < n) : file.read pos n = [] ↔ file.size - pos = 0 := by
  rw [← length_eq_zero_iff, ByteFile.read_length]
  omega

theorem read_min (n : ℕ) : file.read pos (min n (file.size - pos)) = file.read pos n := by
  rw [ByteFile.read, ByteFile.read, min_assoc, min_self]

theorem dpread_bytes (file : ByteFile) (size : ℕ) : ∀ (answers : List ReadAnswer) (pos : ℕ) (i : ℤ),
    stored (dpread file size answers pos i).1 = file.read pos (stored (dpread file size answers pos i).1).length := by
  intro answers
  induction answers with
  | nil => exact fun _ _ => rfl
  | cons a answers ih =>
    intro pos i
    rw [dpread.eq_def]
    dsimp only
    by_cases hi : i < size
    · rw [if_pos hi]
      cases a with
      | endOfFile => rfl
      | error => rfl
      | interrupted => exact ih pos (i + -1)
      | upTo k =>
        dsimp only
        by_cases hnone : file.read pos (min (k + 1) (size - i).toNat) = []
        · rw [if_pos hnone]
          rfl
        rw [if_neg hnone]
        generalize hbytes : file.read pos (min (k + 1) (size - i).toNat) = bytes at hnone ⊢
        have hlen : bytes.length = min (min (k + 1) (size - i).toNat) (file.size - pos) := by rw [← hbytes, ByteFile.read_length]
        have hpos : 0 < bytes.length := length_pos_iff.2 hnone
        have hrest := ih (pos + bytes.length) (i + bytes.length)
        rw [stored_cons]
        dsimp only
        generalize stored (dpread file size answers (pos + bytes.length) (i + bytes.length)).1 = rest at hrest
        have hrestlen : rest.length = min rest.length (file.size - (pos + bytes.length)) := by
          rw [← ByteFile.read_length, ← hrest]
        rw [length_append, ByteFile.read_add (by omega), ← hrest]
        congr 1
        rw [hlen, read_min, hbytes]
    · rw [if_neg hi]
      rfl

theorem readRight_nil {v : Option ℤ} : ReadRight file size pos i ([], v) ↔ ∀ n, v = some n → n = -1 ∨ n = i := by
  have hnone : ((stored []).length : ℤ) = 0 := rfl
  constructor
  · intro h n hn
    have hvalue := h.value n hn
    rwa [hnone, add_zero] at hvalue
  · intro h
    refine ⟨trivial, fun s hs => absurd hs not_mem_nil, rfl, fun n hn => ?_⟩
    exact h n hn

theorem readRight_value {n : ℤ} : ReadRight file size pos i ([], some n) ↔ n = -1 ∨ n = i := by
  rw [readRight_nil]
  constructor
  · exact fun h => h n rfl
  · rintro h m hm
    rwa [← Option.some.inj hm]

/-- **Behind an interruption**, the loop is at a place before the one where the next bytes belong. -/
theorem silent_iff : ∀ (answers : List ReadAnswer) (interruptions : ℕ), 0 < interruptions → i ≤ size →
    (ReadRight file size pos i (dpread file size answers pos (i - interruptions)) ↔ Silent (file.size - pos) i answers interruptions) := by
  intro answers
  induction answers with
  | nil =>
    intro interruptions hpos hi
    have hwait : (i - interruptions : ℤ) < size := by omega
    rw [dpread, if_pos hwait, readRight_nil]
    exact iff_of_true (fun n hn => absurd hn.symm (some_ne_none n)) trivial
  | cons a answers ih =>
    intro interruptions hpos hi
    have hwait : (i - interruptions : ℤ) < size := by omega
    have hback : (i - interruptions : ℤ) = -1 ∨ (i - interruptions : ℤ) = i ↔ interruptions = i + 1 := by omega
    rw [dpread.eq_def]
    dsimp only
    rw [if_pos hwait]
    cases a with
    | endOfFile => exact readRight_value.trans hback
    | error => exact iff_of_true (readRight_value.2 (Or.inl rfl)) trivial
    | interrupted =>
      have hnext : (i - interruptions + -1 : ℤ) = i - (interruptions + 1 : ℕ) := by omega
      rw [hnext]
      exact ih (interruptions + 1) (Nat.succ_pos _) hi
    | upTo k =>
      dsimp only
      have hend : file.read pos (min (k + 1) ((size : ℤ) - (i - interruptions)).toNat) = [] ↔ file.size - pos = 0 := read_nil_iff (by omega)
      by_cases hleft : file.size - pos = 0
      · rw [if_pos (hend.2 hleft), readRight_value, hback, Silent, and_iff_right hleft]
      · rw [if_neg fun hnone => hleft (hend.1 hnone)]
        refine iff_of_false ?_ fun h => hleft h.1
        intro h
        have hplace := h.inOrder.1
        omega

/-- **The loop before any interruption**: it is right exactly when the answers leave it undisturbed. -/
theorem dpread_from : ∀ (answers : List ReadAnswer) (pos i : ℕ), i ≤ size →
    (ReadRight file size pos i (dpread file size answers pos i) ↔ Undisturbed size answers (file.size - pos) i) := by
  intro answers
  induction answers with
  | nil =>
    intro pos i hi
    rw [dpread, readRight_nil]
    refine iff_of_true (fun n hn => Or.inr ?_) trivial
    by_cases hwait : (i : ℤ) < size
    · rw [if_pos hwait] at hn
      exact absurd hn.symm (some_ne_none n)
    · rw [if_neg hwait] at hn
      exact (Option.some.inj hn).symm
  | cons a answers ih =>
    intro pos i hi
    rw [dpread.eq_def]
    dsimp only
    by_cases hwait : (i : ℤ) < size
    · rw [if_pos hwait]
      have hmore : ¬ size ≤ i := by omega
      cases a with
      | endOfFile => exact iff_of_true (readRight_value.2 (Or.inr rfl)) trivial
      | error => exact iff_of_true (readRight_value.2 (Or.inl rfl)) trivial
      | interrupted =>
        rw [Undisturbed, or_iff_right hmore]
        exact silent_iff answers 1 Nat.one_pos hi
      | upTo k =>
        dsimp only
        have hroom : ((size : ℤ) - i).toNat = size - i := by omega
        rw [hroom, Undisturbed, or_iff_right hmore]
        have hend : file.read pos (min (k + 1) (size - i)) = [] ↔ file.size - pos = 0 := read_nil_iff (by omega)
        by_cases hleft : file.size - pos = 0
        · rw [if_pos (hend.2 hleft)]
          exact iff_of_true (readRight_value.2 (Or.inr rfl)) (Or.inl hleft)
        rw [if_neg fun hnone => hleft (hend.1 hnone), or_iff_right hleft]
        have hall := dpread_bytes file size (.upTo k :: answers) pos i
        rw [dpread.eq_def] at hall
        dsimp only at hall
        rw [if_pos hwait, hroom, if_neg fun hnone => hleft (hend.1 hnone)] at hall
        generalize hbytes : file.read pos (min (k + 1) (size - i)) = bytes at hall ⊢
        have hlen : bytes.length = min (min (k + 1) (size - i)) (file.size - pos) := by rw [← hbytes, ByteFile.read_length]
        have hnext := ih (pos + bytes.length) (i + bytes.length) (by omega)
        have hrest := dpread_bytes file size answers (pos + bytes.length) ((i + bytes.length : ℕ) : ℤ)
        have hleft' : file.size - (pos + bytes.length) = file.size - pos - min (k + 1) (size - i) := by omega
        have hi' : i + bytes.length = i + min (min (k + 1) (size - i)) (file.size - pos) := by omega
        rw [← hi', ← hleft', ← hnext]
        rw [Nat.cast_add] at hnext hrest ⊢
        generalize dpread file size answers (pos + bytes.length) (i + bytes.length : ℤ) = r at hall hrest ⊢
        -- one store more in front
        have hcount : ∀ n : ℤ, n = i + (stored ((↑i, bytes) :: r.1)).length ↔ n = (i + bytes.length : ℕ) + (stored r.1).length := by
          intro n
          rw [stored_cons, length_append]
          push_cast
          omega
        constructor
        · intro h
          refine ⟨?_, fun s hs => h.inside s (mem_cons_of_mem _ hs), hrest, fun n hn => (h.value n hn).imp_right (hcount n).1⟩
          exact h.inOrder.2
        · intro h
          have horder := h.inOrder
          refine ⟨⟨rfl, horder⟩, forall_mem_cons.2 ⟨⟨?_, ?_⟩, h.inside⟩, hall, fun n hn => (h.value n hn).imp_right (hcount n).2⟩
          · exact Int.natCast_nonneg i
          · dsimp only
            omega
    · rw [if_neg hwait]
      refine iff_of_true (readRight_value.2 (Or.inr rfl)) ?_
      have hfull : size ≤ i := by omega
      cases a with
      | endOfFile => trivial
      | error => trivial
      | interrupted => exact Or.inl hfull
      | upTo k => exact Or.inl hfull

theorem dpread_iff (file : ByteFile) (size pos : ℕ) (answers : List ReadAnswer) :
    ReadRight file size pos 0 (dpread file size answers pos 0) ↔ Undisturbed size answers (file.size - pos) 0 :=
  dpread_from answers pos 0 (Nat.zero_le size)

@[grind =] def deposit (mem : ℤ → UInt8) : List (ℤ × Bytes) → ℤ → UInt8
  | [] => mem
  | (place, bytes) :: stores => deposit (fun x => if place ≤ x ∧ x < place + bytes.length then bytes.getD (x - place).toNat 0 else mem x) stores

def Holds (mem mem' : ℤ → UInt8) (place : ℤ) (bytes : Bytes) : Prop :=
  ∀ x, mem' x = if place ≤ x ∧ x < place + bytes.length then bytes.getD (x - place).toNat 0 else mem x

theorem deposit_inOrder : ∀ (stores : List (ℤ × Bytes)) (mem : ℤ → UInt8) {i : ℤ}, InOrder i stores → Holds mem (deposit mem stores) i (stored stores) := by
  intro stores
  induction stores with
  | nil =>
    intro mem i _ x
    have hnone : ((stored []).length : ℤ) = 0 := rfl
    rw [hnone, if_neg (by omega)]
    rfl
  | cons s stores ih =>
    intro mem i h x
    obtain ⟨place, bytes⟩ := s
    obtain ⟨rfl, horder⟩ := h
    have hlen : ((stored ((place, bytes) :: stores)).length : ℤ) = bytes.length + (stored stores).length := by
      rw [stored_cons, length_append, Nat.cast_add]
    rw [deposit, ih _ horder x, hlen, stored_cons]
    dsimp only
    by_cases hfirst : place ≤ x ∧ x < place + bytes.length
    · rw [if_neg (by omega), if_pos hfirst, if_pos (by omega), getD_append _ _ _ _ (by omega)]
    by_cases hrest : place + bytes.length ≤ x ∧ x < place + bytes.length + (stored stores).length
    · have hplace : (x - place).toNat - bytes.length = (x - (place + bytes.length)).toNat := by omega
      rw [if_pos hrest, if_pos (by omega), getD_append_right _ _ _ _ (by omega), hplace]
    · rw [if_neg hrest, if_neg hfirst, if_neg (by omega)]

/-- What `dpwrite` should do: the size is returned only when exactly the bytes of the buffer are written. -/
def WriteRight (os : List WriteResult) (buf : Bytes) : Prop :=
  ∀ rv written os', dpwrite os buf [] 0 = some (rv, written, os') → rv = buf.length → written = buf

/-- What `dpseekread` should do: it succeeds only when the buffer is filled with the bytes of the file at the offset, and nothing else is changed. -/
def SeekReadRight (seeks : Bool) (answers : List ReadAnswer) (file : ByteFile) (off size : ℕ) : Prop :=
  ∀ stores, dpseekread seeks answers file off size = (stores, some true) →
    (file.read off size).length = size ∧ ∀ mem, Holds mem (deposit mem stores) 0 (file.read off size)

/-- What `dpseekwrite` should do: it succeeds only when the file has the bytes of the buffer at the offset, and nothing else is changed. -/
def SeekWriteRight (seeks : Bool) (os : List WriteResult) (file : ByteFile) (off : ℤ) (buf : Bytes) : Prop :=
  ∀ file', dpseekwrite seeks os file off buf = some (file', true) →
    file' = if buf = [] then file else file.write (if off < 0 then file.size else off.toNat) buf

theorem dpwrite_right (os : List WriteResult) (buf : Bytes) : WriteRight os buf := by
  intro rv written os' hwrite hrv
  obtain ⟨used, -, ⟨hbad, -⟩ | ⟨-, hwritten, -⟩⟩ := dpwrite_spec hwrite
  · omega
  · exact hwritten

theorem dpseekwrite_right (seeks : Bool) (os : List WriteResult) (file : ByteFile) (off : ℤ) (buf : Bytes) : SeekWriteRight seeks os file off buf := by
  intro file' hseek
  rw [dpseekwrite] at hseek
  by_cases hempty : buf = []
  · rw [if_pos hempty] at hseek
    rw [if_pos hempty]
    exact (Prod.mk.inj (Option.some.inj hseek)).1.symm
  rw [if_neg hempty] at hseek ⊢
  by_cases hseeks : seeks = false
  · rw [if_pos hseeks] at hseek
    exact Bool.noConfusion (Prod.mk.inj (Option.some.inj hseek)).2
  · rw [if_neg hseeks] at hseek
    obtain ⟨⟨rv, written, os'⟩, hwrite, heq⟩ := map_eq_some_iff.1 hseek
    obtain ⟨hfile, hrv⟩ := Prod.mk.inj heq
    have hwritten : written = buf := dpwrite_right os buf rv written os' hwrite (of_decide_eq_true hrv)
    rw [← hfile, hwritten]
    exact if_neg hempty

theorem dpseekread_right {off : ℕ} (h : ReadRight file size off 0 (dpread file size answers off 0)) (seeks : Bool) :
    SeekReadRight seeks answers file off size := by
  intro stores hseek
  rw [dpseekread] at hseek
  by_cases hseeks : seeks = false
  · rw [if_pos hseeks] at hseek
    exact Bool.noConfusion (Option.some.inj (Prod.mk.inj hseek).2)
  rw [if_neg hseeks] at hseek
  obtain ⟨rfl, hok⟩ := Prod.mk.inj hseek
  obtain ⟨n, hn, hsize⟩ := map_eq_some_iff.1 hok
  have hsize : n = size := of_decide_eq_true hsize
  have hcount : (stored (dpread file size answers off 0).1).length = size := by
    have hvalue := h.value n hn
    omega
  have hbytes := h.bytes
  rw [hcount] at hbytes
  refine ⟨by rw [← hbytes, hcount], fun mem => ?_⟩
  rw [← hbytes]
  exact deposit_inOrder _ mem h.inOrder

/-- **All four functions are right exactly when the answers of `read` leave `dpread` undisturbed**, whatever those of `write` and `lseek` are. -/
theorem transfers_iff (file : ByteFile) (size pos : ℕ) (answers : List ReadAnswer) (seeks : Bool) (os : List WriteResult) (off : ℤ) (buf : Bytes) :
    (ReadRight file size pos 0 (dpread file size answers pos 0) ∧ WriteRight os buf ∧ SeekReadRight seeks answers file pos size ∧
      SeekWriteRight seeks os file off buf) ↔ Undisturbed size answers (file.size - pos) 0 := by
  rw [← dpread_iff]
  constructor
  · exact fun h => h.1
  · exact fun h => ⟨h, dpwrite_right os buf, dpseekread_right h seeks, dpseekwrite_right seeks os file off buf⟩

/-- **An interruption at the first call**: three bytes are stored from the place before the buffer on, and 2 is returned, as if all were well. -/
theorem dpread_interrupted : ¬ ReadRight ⟨fun _ => 120, 3⟩ 2 0 0 (dpread ⟨fun _ => 120, 3⟩ 2 [.interrupted, .upTo 9] 0 0) ∧
      dpseekread true [.interrupted, .upTo 9] ⟨fun _ => 120, 3⟩ 0 2 = ([(-1, [120, 120, 120])], some true) := by
  have hrun : dpread ⟨fun _ => 120, 3⟩ 2 [.interrupted, .upTo 9] 0 0 = ([(-1, [120, 120, 120])], some 2) := rfl
  refine ⟨?_, by rw [dpseekread, hrun]; rfl⟩
  intro h
  have hinside := (h.inside _ mem_cons_self).1
  omega

end KVStores.Qdbm
