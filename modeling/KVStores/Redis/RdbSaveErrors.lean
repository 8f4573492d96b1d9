import KVStores.Redis.RdbSave

/-!
# Write errors of a save

* Every routine stops at a write error it looks at, with -1, and so does all of `rdbSave`. It does not look at two results: that
  of the four bytes of a long length, which is compared with -4, and that of the checksum.
-/

namespace KVStores.Redis.Rdb

open List

variable {α : Type} {cfg : Config α}

def LengthOrChecksum (buf : List UInt8) : Prop := buf.length = 4 ∨ buf.length = 8

/-- A routine that ends with `bad` at a write error, unless the write is that of a length or of the checksum. -/
abbrev Heedful {β : Type} (bad : β) (s : Save β) : Prop := s.Heedful LengthOrChecksum bad

theorem rdbWriteRaw_heedful (p : List UInt8) : Heedful (-1) (rdbWriteRaw true p) := ⟨rfl, trivial⟩

variable {s : Save ℤ} {k : ℤ → Save ℤ}

theorem heedful_unless (hs : Heedful (-1) s) (hk : ∀ n, Heedful (-1) (k n)) :
    Heedful (-1) (s >>= fun n => if n = -1 then pure (-1) else k n) := by
  refine Script.Heedful.bind (k := fun n => if n = -1 then pure (-1) else k n) (if_pos rfl) ?_ hs
  intro n
  by_cases hn : n = -1
  · rw [if_pos hn]
    trivial
  · rw [if_neg hn]
    exact hk n

theorem littleEndian_length : ∀ n v : ℕ, (littleEndian n v).length = n := by
  intro n
  induction n with
  | zero =>
    intro v
    rfl
  | succ n ih =>
    intro v
    rw [littleEndian, length_cons, ih]

theorem heedful_unheeded {p : List UInt8} (hp : LengthOrChecksum p) (hsame : k (-1) = k (cint p.length))
    (hk : Heedful (-1) (k (cint p.length))) : Heedful (-1) (rdbWriteRaw false p >>= k) := by
  refine ⟨?_, hk⟩
  exact ⟨hsame, hp⟩

theorem rdbSaveType_heedful (type : UInt8) : Heedful (-1) (rdbSaveType type) := rdbWriteRaw_heedful _

theorem rdbSaveLen_heedful (len : ℕ) : Heedful (-1) (rdbSaveLen len) := by
  rw [rdbSaveLen]
  by_cases h1 : len % 2 ^ 32 < 2 ^ 6
  · rw [if_pos h1]
    exact heedful_unless (rdbWriteRaw_heedful _) fun _ => trivial
  rw [if_neg h1]
  by_cases h2 : len % 2 ^ 32 < 2 ^ 14
  · rw [if_pos h2]
    exact heedful_unless (rdbWriteRaw_heedful _) fun _ => trivial
  rw [if_neg h2]
  -- the result -1 of the last call passes for a success
  refine heedful_unless (rdbWriteRaw_heedful _) fun _ => ?_
  have hlen : (littleEndian 4 (len % 2 ^ 32)).reverse.length = 4 := by
    rw [length_reverse, littleEndian_length]
  have hfour : cint (littleEndian 4 (len % 2 ^ 32)).reverse.length = 4 := by
    rw [hlen]
    rfl
  refine heedful_unheeded (Or.inl hlen) ?_ ?_
  · rw [hfour, if_neg (by decide), if_neg (by decide)]
  · rw [hfour, if_neg (by decide)]
    trivial

theorem rdbSaveLzfStringObject_heedful (s : List UInt8) : Heedful (-1) (rdbSaveLzfStringObject cfg s) := by
  rw [rdbSaveLzfStringObject]
  by_cases hlen : s.length ≤ 4
  · rw [if_pos hlen]
    trivial
  rw [if_neg hlen]
  by_cases hout : cfg.lzfCompress s (s.length - 4) = []
  · rw [if_pos hout]
    trivial
  rw [if_neg hout]
  refine heedful_unless (rdbWriteRaw_heedful _) fun _ => ?_
  refine heedful_unless (rdbSaveLen_heedful _) fun _ => ?_
  refine heedful_unless (rdbSaveLen_heedful _) fun _ => ?_
  exact heedful_unless (rdbWriteRaw_heedful _) fun _ => trivial

theorem rdbSaveVerbatim_heedful (s : List UInt8) : Heedful (-1) (rdbSaveVerbatim s) := by
  refine heedful_unless (rdbSaveLen_heedful _) fun _ => ?_
  by_cases hs : s ≠ []
  · rw [if_pos hs]
    exact heedful_unless (rdbWriteRaw_heedful _) fun _ => trivial
  · rw [if_neg hs]
    trivial

theorem rdbSaveRawString_heedful (s : List UInt8) : Heedful (-1) (rdbSaveRawString cfg s) := by
  rw [rdbSaveRawString]
  by_cases hint : s.length ≤ 11 ∧ rdbTryIntegerEncoding s ≠ []
  · rw [if_pos hint]
    exact heedful_unless (rdbWriteRaw_heedful _) fun _ => trivial
  rw [if_neg hint]
  by_cases hlzf : cfg.rdbCompression = true ∧ s.length > 20
  · rw [if_pos hlzf]
    refine heedful_unless (rdbSaveLzfStringObject_heedful _) fun n => ?_
    by_cases hn : n > 0
    · rw [if_pos hn]
      trivial
    · rw [if_neg hn]
      exact rdbSaveVerbatim_heedful s
  · rw [if_neg hlzf]
    exact rdbSaveVerbatim_heedful s

theorem rdbSaveLongLongAsStringObject_heedful (value : Long) : Heedful (-1) (rdbSaveLongLongAsStringObject value) := by
  rw [rdbSaveLongLongAsStringObject]
  by_cases hint : rdbEncodeInteger value.1 ≠ []
  · rw [if_pos hint]
    exact rdbWriteRaw_heedful _
  rw [if_neg hint]
  refine heedful_unless (rdbSaveLen_heedful _) fun _ => ?_
  exact heedful_unless (rdbWriteRaw_heedful _) fun _ => trivial

theorem rdbSaveStringObject_heedful (o : Robj) : Heedful (-1) (rdbSaveStringObject cfg o) := by
  cases o with
  | int v => exact rdbSaveLongLongAsStringObject_heedful v
  | raw s => exact rdbSaveRawString_heedful s

theorem rdbSaveDoubleValue_heedful (x : Double α) : Heedful (-1) (rdbSaveDoubleValue cfg x) := by
  cases x <;> exact rdbWriteRaw_heedful _

theorem rdbSaveEach_heedful : ∀ {saves : List (Save ℤ)} (nwritten : ℤ), (∀ s ∈ saves, Heedful (-1) s) →
    Heedful (-1) (rdbSaveEach saves nwritten) := by
  intro saves
  induction saves with
  | nil =>
    intro _ _
    trivial
  | cons s saves ih =>
    intro nwritten hall
    exact heedful_unless (hall s mem_cons_self) fun n => ih _ fun s hs => hall s (mem_cons_of_mem _ hs)

theorem rdbSaveObjectType_heedful (v : Value α) : Heedful (-1) (rdbSaveObjectType v) := by
  cases v <;> exact rdbSaveType_heedful _

theorem rdbSaveObject_heedful (v : Value α) : Heedful (-1) (rdbSaveObject cfg v) := by
  cases v with
  | string o => exact rdbSaveEach_heedful 0 (by simpa using rdbSaveStringObject_heedful o)
  | listZiplist blob => exact rdbSaveEach_heedful 0 (by simpa using rdbSaveRawString_heedful blob)
  | setIntset blob => exact rdbSaveEach_heedful 0 (by simpa using rdbSaveRawString_heedful blob)
  | zsetZiplist blob => exact rdbSaveEach_heedful 0 (by simpa using rdbSaveRawString_heedful blob)
  | hashZiplist blob => exact rdbSaveEach_heedful 0 (by simpa using rdbSaveRawString_heedful blob)
  | listLinked l =>
    refine rdbSaveEach_heedful 0 (forall_mem_cons.2 ⟨rdbSaveLen_heedful _, ?_⟩)
    exact List.forall_mem_map.2 fun o _ => rdbSaveStringObject_heedful o
  | setHt l =>
    refine rdbSaveEach_heedful 0 (forall_mem_cons.2 ⟨rdbSaveLen_heedful _, ?_⟩)
    exact List.forall_mem_map.2 fun o _ => rdbSaveStringObject_heedful o
  | zsetSkiplist l =>
    refine rdbSaveEach_heedful 0 (forall_mem_cons.2 ⟨rdbSaveLen_heedful _, forall_mem_flatMap.2 fun e _ => ?_⟩)
    simpa using ⟨rdbSaveStringObject_heedful e.1, rdbSaveDoubleValue_heedful e.2⟩
  | hashHt l =>
    refine rdbSaveEach_heedful 0 (forall_mem_cons.2 ⟨rdbSaveLen_heedful _, forall_mem_flatMap.2 fun e _ => ?_⟩)
    simpa using ⟨rdbSaveStringObject_heedful e.1, rdbSaveStringObject_heedful e.2⟩

theorem rdbSaveTypeKeyValue_heedful (e : Entry α) : Heedful (-1) (do
      if (← rdbSaveObjectType e.value) = -1 then return -1
      if (← rdbSaveStringObject cfg (.raw e.key)) = -1 then return -1
      if (← rdbSaveObject cfg e.value) = -1 then return -1
      return 1 : Save ℤ) := by
  refine heedful_unless (rdbSaveObjectType_heedful _) fun _ => ?_
  refine heedful_unless (rdbSaveStringObject_heedful _) fun _ => ?_
  exact heedful_unless (rdbSaveObject_heedful _) fun _ => trivial

theorem rdbSaveKeyValuePair_heedful (now : Long) (e : Entry α) : Heedful (-1) (rdbSaveKeyValuePair cfg now e) := by
  rw [rdbSaveKeyValuePair]
  by_cases hexpire : e.expire.1 ≠ -1
  · rw [if_pos hexpire]
    by_cases hnow : e.expire.1 < now.1
    · rw [if_pos hnow]
      trivial
    rw [if_neg hnow]
    refine heedful_unless (rdbSaveType_heedful _) fun _ => ?_
    exact heedful_unless (rdbWriteRaw_heedful _) fun _ => rdbSaveTypeKeyValue_heedful e
  · rw [if_neg hexpire]
    exact rdbSaveTypeKeyValue_heedful e

theorem heedful_goto {k : Save Bool} (hs : Heedful (-1) s) (hk : Heedful false k) :
    Heedful false (s >>= fun n => if n = -1 then pure false else k) := by
  refine Script.Heedful.bind (k := fun n => if n = -1 then pure false else k) (if_pos rfl) ?_ hs
  intro n
  by_cases hn : n = -1
  · rw [if_pos hn]
    trivial
  · rw [if_neg hn]
    exact hk

theorem heedful_goto_false {s k : Save Bool} (hs : Heedful false s) (hk : Heedful false k) :
    Heedful false (s >>= fun reached => if reached = false then pure false else k) := by
  refine Script.Heedful.bind (k := fun reached => if reached = false then pure false else k) (if_pos rfl) ?_ hs
  intro reached
  cases reached with
  | false => trivial
  | true => exact hk

theorem rdbSaveEntries_heedful (now : Long) : ∀ l : List (Entry α), Heedful false (rdbSaveEntries cfg now l) := by
  intro l
  induction l with
  | nil => trivial
  | cons e l ih => exact heedful_goto (rdbSaveKeyValuePair_heedful now e) ih

theorem rdbSaveDbs_heedful (now : Long) : ∀ (dbs : List (List (Entry α))) (j : ℕ), Heedful false (rdbSaveDbs cfg now j dbs) := by
  intro dbs
  induction dbs with
  | nil =>
    intro j
    trivial
  | cons db dbs ih =>
    intro j
    rw [rdbSaveDbs]
    by_cases hdb : db = []
    · rw [if_pos hdb]
      exact ih (j + 1)
    rw [if_neg hdb]
    refine heedful_goto (rdbSaveType_heedful _) (heedful_goto (rdbSaveLen_heedful _) ?_)
    exact heedful_goto_false (rdbSaveEntries_heedful now db) (ih (j + 1))

theorem rdbSaveFile_heedful (now : Long) (dbs : List (List (Entry α))) : Heedful false (rdbSaveFile cfg now dbs) := by
  refine heedful_goto (rdbWriteRaw_heedful _) (heedful_goto_false (rdbSaveDbs_heedful now dbs 0) ?_)
  refine heedful_goto (rdbSaveType_heedful _) ?_
  -- the result of the checksum's write is not looked at
  intro written
  refine ⟨?_, trivial⟩
  exact ⟨rfl, Or.inr (littleEndian_length 8 _)⟩

/-- What `rdbSave` is to write, call after call of `rioWrite`, each with whether the code looks at its result. -/
def serialisation (cfg : Config α) (now : Long) (dbs : List (List (Entry α))) : List (List UInt8 × Bool) :=
  ((rdbSaveFile cfg now dbs).plan []).2

/-- The count of an object's bytes, an `int`, comes to -1 by itself, and the save is given up. -/
def countFails (cfg : Config α) (now : Long) (dbs : List (List (Entry α))) : Prop := ((rdbSaveFile cfg now dbs).plan []).1 = false

/-- A call of `rioWrite` fails, one whose result is looked at or one whose result is not. -/
def Fails (heeded : Bool) (env : Outcome) (calls : List (List UInt8 × Bool)) : Prop :=
  ∃ i buf, calls[i]? = some (buf, heeded) ∧ env.ok i = false

/-- The save is complete, and every call of `rioWrite` has succeeded; or it reports an error, and the dump file is as it was. -/
def SavedOrKept (cfg : Config α) (env : Outcome) (now : Long) (dbs : List (List (Entry α))) (dump : Option (List UInt8)) : Prop :=
  ((∀ i < (serialisation cfg now dbs).length, env.ok i = true) ∧
    rdbSave cfg env now dbs dump = (true, some ((serialisation cfg now dbs).map Prod.fst).flatten)) ∨
  rdbSave cfg env now dbs dump = (false, dump)

theorem fails_iff {β : Type} (heeded : Bool) (ok : ℕ → Bool) : ∀ (i : ℕ) (p : List (β × Bool)),
    Script.fails heeded ok i p = true ↔ ∃ j b, p[j]? = some (b, heeded) ∧ ok (i + j) = false := by
  intro i p
  induction p generalizing i with
  | nil => simp [Script.fails]
  | cons x p ih =>
    obtain ⟨b, x⟩ := x
    rw [Script.fails, Bool.or_eq_true, ih]
    constructor
    · rintro (h | ⟨j, b', h1, h2⟩)
      · rw [Bool.and_eq_true, beq_iff_eq, Bool.not_eq_true'] at h
        exact ⟨0, b, by rw [List.getElem?_cons_zero, h.1], h.2⟩
      · exact ⟨j + 1, b', h1, by rwa [← Nat.add_assoc, Nat.add_right_comm]⟩
    · rintro ⟨j, b', h1, h2⟩
      cases j with
      | zero =>
        obtain ⟨-, rfl⟩ := Prod.mk.inj (Option.some.inj h1)
        left
        rw [beq_self_eq_true, Bool.true_and, Bool.not_eq_true']
        exact h2
      | succ j => exact Or.inr ⟨j, b', h1, by rwa [Nat.add_right_comm, Nat.add_assoc]⟩

theorem fileBytes_ok {kept : ℕ → ℕ} : ∀ {t : List (List UInt8 × Bool)} (i : ℕ), (∀ x ∈ t, x.2 = true) →
    fileBytes kept i t = (t.map Prod.fst).flatten := by
  intro t
  induction t with
  | nil =>
    intro _ _
    rfl
  | cons x t ih =>
    intro i hall
    obtain ⟨buf, ok⟩ := x
    have hok : ok = true := hall _ mem_cons_self
    rw [fileBytes, if_pos hok, ih (i + 1) fun y hy => hall y (mem_cons_of_mem _ hy), map_cons, flatten_cons]

/-- **A failed save keeps the dump file, and a finished one is complete**, exactly when no write fails whose result is not
looked at, or something else goes wrong that the code sees. -/
theorem rdbSave_iff (cfg : Config α) (env : Outcome) (now : Long) (dbs : List (List (Entry α))) (dump : Option (List UInt8)) :
    SavedOrKept cfg env now dbs dump ↔
      ¬ Fails false env (serialisation cfg now dbs) ∨ Fails true env (serialisation cfg now dbs) ∨ countFails cfg now dbs ∨
        env.opens = false ∨ env.renames = false := by
  obtain ⟨hstop, hgo⟩ := Script.run_heedful env.ok [] (rdbSaveFile_heedful now dbs : Heedful false (rdbSaveFile cfg now dbs))
  rw [map_nil, length_nil] at hstop hgo
  have hiff : ∀ heeded, Script.fails heeded env.ok 0 (serialisation cfg now dbs) = true ↔ Fails heeded env (serialisation cfg now dbs) := by
    intro heeded
    rw [fails_iff, Fails]
    simp only [Nat.zero_add]
  by_cases hopens : env.opens = false
  · rw [SavedOrKept, rdbSave, if_pos hopens]
    exact iff_of_true (Or.inr rfl) (Or.inr (Or.inr (Or.inr (Or.inl hopens))))
  by_cases hfail : Fails true env (serialisation cfg now dbs)
  · -- the save stops where it sees the failure
    rw [SavedOrKept, rdbSave, if_neg hopens]
    dsimp only
    rw [hstop ((hiff true).2 hfail), if_pos rfl]
    exact iff_of_true (Or.inr rfl) (Or.inr (Or.inl hfail))
  have hpass : Script.fails true env.ok 0 (serialisation cfg now dbs) = false := by
    rw [← hiff true, Bool.not_eq_true] at hfail
    exact hfail
  rw [SavedOrKept, rdbSave, if_neg hopens, hgo hpass]
  dsimp only
  by_cases hcount : countFails cfg now dbs
  · rw [hcount, if_pos rfl]
    exact iff_of_true (Or.inr rfl) (Or.inr (Or.inr (Or.inl hcount)))
  have hreached : ((rdbSaveFile cfg now dbs).plan []).1 = true := by
    rwa [countFails, Bool.not_eq_false] at hcount
  rw [hreached, if_neg (by decide)]
  by_cases hrenames : env.renames = false
  · rw [if_pos hrenames]
    exact iff_of_true (Or.inr rfl) (Or.inr (Or.inr (Or.inr (Or.inr hrenames))))
  rw [if_neg hrenames]
  by_cases hmissed : Fails false env (serialisation cfg now dbs)
  · -- a failure nobody saw
    refine iff_of_false ?_ (by simp [hmissed, hfail, hcount, hopens, hrenames])
    rintro (⟨hall, -⟩ | h)
    · obtain ⟨i, buf, hi, hok⟩ := hmissed
      rw [hall i (List.getElem?_eq_some_iff.1 hi).1] at hok
      exact absurd hok nofun
    · exact absurd (congrArg Prod.fst h) nofun
  · refine iff_of_true (Or.inl ⟨?_, ?_⟩) (Or.inl hmissed)
    · intro i hi
      by_contra hok
      rw [Bool.not_eq_true] at hok
      cases hx : (serialisation cfg now dbs)[i].2 with
      | true => exact hfail ⟨i, _, List.getElem?_eq_some_iff.2 ⟨hi, Prod.ext rfl hx⟩, hok⟩
      | false => exact hmissed ⟨i, _, List.getElem?_eq_some_iff.2 ⟨hi, Prod.ext rfl hx⟩, hok⟩
    · have hmissed' : Script.fails false env.ok 0 (serialisation cfg now dbs) = false := by
        rw [← hiff false, Bool.not_eq_true] at hmissed
        exact hmissed
      change (true, some (fileBytes env.kept 0 (Script.outcomes env.ok 0 (serialisation cfg now dbs)))) = _
      rw [fileBytes_ok 0 ((Script.outcomes_ok env.ok 0 _).2 ⟨hpass, hmissed'⟩), Script.outcomes_fst]

def plainConfig : Config Unit := ⟨false, false, fun _ _ => [], fun crc _ => crc, fun _ => none, fun _ => []⟩

/-- The third call of `rioWrite` fails: with an empty dataset, that of the checksum. -/
def fullDisk : Outcome := ⟨true, fun i => decide (i ≠ 2), fun _ => 3, true⟩

/-- **A dump without its checksum replaces the good one.** -/
theorem rdbSave_full : ¬ SavedOrKept plainConfig fullDisk ⟨0, by decide⟩ [] (some [1, 2, 3]) := by
  rintro (⟨h, -⟩ | h)
  · exact absurd (h 2 (by decide)) (by decide)
  · exact absurd (congrArg Prod.fst h) (by decide)

end KVStores.Redis.Rdb
