import KVStores.Redis.SetAlgebra
import KVStores.Redis.StringTypeSpec

/-!
# Random members of a set

`srandmemberWithCountCommand`: SRANDMEMBER with a count, by one of four strategies. What `random` and `rand` return are the choices `random k`, for
the `k`-th of them; the loop that waits for new members makes at most `fuel` of them.
-/

namespace KVStores.Redis.SetType

open List Option

/-- `setTypeRandomElement`; it reads nothing from an empty set. -/
def setTypeRandomElement (s : SetObj) (choice : ℕ) : Option Element :=
  match s with
  | .intset is => if intsetLen is = 0 then none else (intsetGetCell is (choice % intsetLen is)).map .int
  | .ht d => (d[choice % d.length]?).map .obj

/-- CASE 1: elements are taken from the whole set every time. -/
@[grind =] def sampleElements (s : SetObj) (random : ℕ → ℕ) : ℕ → ℕ → Option (List (List UInt8))
  | 0, _ => some []
  | count + 1, k =>
    (setTypeRandomElement s (random k)).bind fun e => (sampleElements s random count (k + 1)).map (getDecodedObject e.object :: ·)

def copyElement : Element → Robj
  | .int llele => StringType.createStringObjectFromLongLong llele
  | .obj (.raw s) => .raw s
  | .obj (.int v) => StringType.createStringObjectFromLongLong v.1

@[grind =] def removeRandom (random : ℕ → ℕ) : ℕ → ℕ → List Robj → Option (List Robj)
  | 0, _, d => some d
  | n + 1, k, d => (d[random k % d.length]?).bind fun key => removeRandom random n (k + 1) ((dictDelete d key).getD d)

/-- The loop of CASE 4 that adds random elements until there are enough. -/
@[grind =] def addRandom (s : SetObj) (random : ℕ → ℕ) (count : ℕ) : ℕ → ℕ → ℕ → List Robj → Option (List Robj)
  | 0, _, added, d => if added < count then none else some d
  | fuel + 1, k, added, d =>
    if added < count then
      (setTypeRandomElement s (random k)).bind fun e =>
        (dictAdd d (copyElement e)).elim (addRandom s random count fuel (k + 1) added d) (addRandom s random count fuel (k + 1) (added + 1))
    else some d

def subStrategyMul : ℕ := 3

def randomSubset (s : SetObj) (random : ℕ → ℕ) (fuel count size : ℕ) : Option (List Robj) :=
  if size < count * subStrategyMul % 2 ^ 64 then
    (setTypeElements s).bind fun es => (dictAddAll (es.map copyElement) []).bind fun d =>
      if d.length = size then removeRandom random (size - count) 0 d else none
  else addRandom s random count fuel 0 0 []

/-- `count`, an `unsigned long`, and `uniq`. -/
def countOf (l : ℤ) : ℕ × Bool := if 0 ≤ l then (l.toNat % 2 ^ 32, true) else ((-l).toNat % 2 ^ 64, false)

/-- `srandmemberWithCountCommand`: what the keys hold then, and the reply. -/
def srandmemberWithCountCommand (server : Server) (random : ℕ → ℕ) (fuel : ℕ) (db : Db) (key countArg : Sds) : Option (Db × Reply) :=
  match getLongLongFromObject countArg.1 with
  | none => some (db, .error "value is not an integer or out of range")
  | some l =>
    let count := (countOf l).1
    match db key with
    | none => some (db, emptymultibulk)
    | some .other => some (db, .wrongtypeerr)
    | some (.set s) =>
      if count = 0 then some (db, emptymultibulk)
      else if (countOf l).2 = false then (sampleElements s random count 0).map fun bulks => (db, .multibulk ((count : ℤ).bmod (2 ^ 64)) bulks)
      else if setTypeSize s ≤ count then sunionDiffGenericCommand server db [key] none .union
      else (randomSubset s random fuel count (setTypeSize s)).map fun d => (db, .multibulk ((count : ℤ).bmod (2 ^ 64)) (keysOf d))

variable {s : SetObj} {S : Finset (List UInt8)} {es : List Element} {server : Server} {random : ℕ → ℕ}

theorem elements_pos (hne : S.Nonempty) (hstrings : (es.map fun e => getDecodedObject e.object).toFinset = S) : 0 < es.length := by
  rw [length_pos_iff]
  rintro rfl
  rw [← hstrings] at hne
  exact Finset.not_nonempty_empty hne

/-- **A choice is one of the elements**, in either encoding. -/
theorem setTypeRandomElement_spec (h : s.Represents S) (hes : setTypeElements s = some es) (hpos : 0 < es.length) (choice : ℕ) :
    setTypeRandomElement s choice = es[choice % es.length]? := by
  cases h with
  | ht h =>
    cases hes
    rw [setTypeRandomElement, length_map, List.getElem?_map]
  | intset h =>
    rename_i is l
    rw [setTypeElements, intsetElements_all h] at hes
    cases hes
    rw [length_map] at hpos ⊢
    have hlt : choice % l.length < l.length := Nat.mod_lt _ hpos
    have hcell : l[choice % l.length]? = some (l.get ⟨choice % l.length, hlt⟩) := List.getElem?_eq_getElem hlt
    have hlen : intsetLen is = l.length := h.length
    rw [setTypeRandomElement, hlen, if_neg (by omega), h.getCell hcell, List.getElem?_map, hcell]

theorem copyElement_bytes (e : Element) : getDecodedObject (copyElement e) = getDecodedObject e.object := by
  cases e with
  | int llele => rfl
  | obj o =>
    cases o with
    | raw s => rfl
    | int v => exact decoded_integer v.2

/-- **CASE 1** gives as many members as it should. -/
theorem sampleElements_spec (h : s.Represents S) (hne : S.Nonempty) (random : ℕ → ℕ) : ∀ (count k : ℕ),
    ∃ bulks, sampleElements s random count k = some bulks ∧ bulks.length = count ∧ ∀ b ∈ bulks, b ∈ S := by
  obtain ⟨es, hes, -, hstrings⟩ := setTypeElements_spec h
  have hpos := elements_pos hne hstrings
  intro count
  induction count with
  | zero => exact fun k => ⟨[], rfl, rfl, fun b hb => absurd hb not_mem_nil⟩
  | succ count ih =>
    intro k
    obtain ⟨bulks, hsample, hlen, hin⟩ := ih (k + 1)
    have hlt : random k % es.length < es.length := Nat.mod_lt _ hpos
    have hmem : getDecodedObject (es.get ⟨random k % es.length, hlt⟩).object ∈ S := by
      rw [← hstrings, List.mem_toFinset]
      exact List.mem_map_of_mem (List.get_mem _ _)
    refine ⟨getDecodedObject (es.get ⟨random k % es.length, hlt⟩).object :: bulks, ?_, by rw [length_cons, hlen], forall_mem_cons.2 ⟨hmem, hin⟩⟩
    rw [sampleElements, setTypeRandomElement_spec h hes hpos, List.getElem?_eq_getElem hlt, bind_some, hsample]
    rfl

theorem removeRandom_spec (random : ℕ → ℕ) : ∀ (n k : ℕ) {d : List Robj}, (keysOf d).Nodup → n ≤ d.length →
    ∃ d', removeRandom random n k d = some d' ∧ (keysOf d').Nodup ∧ d'.length + n = d.length ∧ ∀ b ∈ keysOf d', b ∈ keysOf d := by
  intro n
  induction n with
  | zero => exact fun k d hd _ => ⟨d, rfl, hd, rfl, fun b hb => hb⟩
  | succ n ih =>
    intro k d hd hn
    have hlt : random k % d.length < d.length := Nat.mod_lt _ (by omega)
    obtain ⟨key, hkey⟩ : ∃ key, d[random k % d.length]? = some key := ⟨_, List.getElem?_eq_getElem hlt⟩
    have hmem : getDecodedObject key ∈ keysOf d := List.mem_map_of_mem (mem_of_getElem? hkey)
    have hdelete : dictDelete d key = some (d.eraseP (dictEncObjKeyCompare key)) := if_pos (dictFind_iff.2 hmem)
    have hkeys := keysOf_eraseP d key
    have hlen : (d.eraseP (dictEncObjKeyCompare key)).length + 1 = d.length := by
      have hcount := congrArg List.length hkeys
      rw [length_erase_of_mem hmem, keysOf, keysOf, length_map, length_map] at hcount
      omega
    obtain ⟨d', hremove, hd', hlen', hin⟩ := ih (k + 1) (d := d.eraseP (dictEncObjKeyCompare key)) (by rw [hkeys]; exact hd.erase _) (by omega)
    refine ⟨d', ?_, hd', by omega, fun b hb => ?_⟩
    · rw [removeRandom, hkey, bind_some, hdelete, getD_some, hremove]
    · have := hin b hb
      rw [hkeys] at this
      exact mem_of_mem_erase this

def drawn (s : SetObj) (random : ℕ → ℕ) (k : ℕ) : Finset (Option (List UInt8)) :=
  (Finset.range k).image fun i => (setTypeRandomElement s (random i)).map fun e => getDecodedObject e.object

variable {count : ℕ}

/-- **CASE 4** ends with enough members, once the choices have come upon them. -/
theorem addRandom_spec (h : s.Represents S) (hne : S.Nonempty) : ∀ (fuel k : ℕ) {d : List Robj}, (keysOf d).Nodup → (∀ b ∈ keysOf d, b ∈ S) →
      (keysOf d).toFinset.image some = drawn s random k → d.length ≤ count → count ≤ (drawn s random (k + fuel)).card →
      ∃ d', addRandom s random count fuel k d.length d = some d' ∧ (keysOf d').Nodup ∧ d'.length = count ∧ ∀ b ∈ keysOf d', b ∈ S := by
  obtain ⟨es, hes, -, hstrings⟩ := setTypeElements_spec h
  have hpos := elements_pos hne hstrings
  have hcard : ∀ {k : ℕ} {d : List Robj}, (keysOf d).Nodup → (keysOf d).toFinset.image some = drawn s random k → d.length = (drawn s random k).card := by
    intro k d hd hdrawn
    rw [← hdrawn, Finset.card_image_of_injective _ (some_injective _), toFinset_card_of_nodup hd, keysOf, length_map]
  intro fuel
  induction fuel with
  | zero =>
    intro k d hd hin hdrawn hle henough
    have hlen := hcard hd hdrawn
    rw [Nat.add_zero] at henough
    exact ⟨d, by rw [addRandom, if_neg (by omega)], hd, by omega, hin⟩
  | succ fuel ih =>
    intro k d hd hin hdrawn hle henough
    rw [addRandom]
    by_cases hless : d.length < count
    · have hlt : random k % es.length < es.length := Nat.mod_lt _ hpos
      obtain ⟨e, he⟩ : ∃ e, es[random k % es.length]? = some e := ⟨_, List.getElem?_eq_getElem hlt⟩
      have hchoice : setTypeRandomElement s (random k) = some e := (setTypeRandomElement_spec h hes hpos _).trans he
      have hmem : getDecodedObject e.object ∈ S := by
        rw [← hstrings, List.mem_toFinset]
        exact List.mem_map_of_mem (mem_of_getElem? he)
      have hnext : drawn s random (k + 1) = insert (some (getDecodedObject e.object)) (drawn s random k) := by
        rw [drawn, Finset.range_add_one, Finset.image_insert, hchoice]
        rfl
      rw [← Nat.add_assoc, Nat.add_right_comm] at henough
      rw [if_pos hless, hchoice, bind_some]
      obtain ⟨hold, hnew⟩ := dictAdd_spec hd (copyElement e)
      rw [copyElement_bytes] at hold hnew
      by_cases hin' : getDecodedObject e.object ∈ keysOf d
      · -- the choice comes upon a member that is there already
        rw [hold hin']
        refine ih (k + 1) hd hin ?_ hle henough
        rw [hnext, ← hdrawn, Finset.insert_eq_of_mem (Finset.mem_image_of_mem some (List.mem_toFinset.2 hin'))]
      · obtain ⟨hadd, hd', hset⟩ := hnew hin'
        rw [hadd]
        refine ih (k + 1) hd' ?_ ?_ hless henough
        · rw [keysOf_cons, copyElement_bytes]
          exact forall_mem_cons.2 ⟨hmem, hin⟩
        · rw [hset, Finset.image_insert, hnext, hdrawn]
    · rw [if_neg hless]
      exact ⟨d, rfl, hd, by omega, hin⟩

variable {fuel : ℕ}

/-- **CASE 3 and CASE 4** give as many different members as they should. -/
theorem randomSubset_spec (h : s.Represents S) (hne : S.Nonempty) (hcount : count < 2 ^ 32) (hless : count ≤ S.card)
    (hdrawn : count ≤ (drawn s random fuel).card) :
    ∃ d, randomSubset s random fuel count (setTypeSize s) = some d ∧ (keysOf d).Nodup ∧ d.length = count ∧ ∀ b ∈ keysOf d, b ∈ S := by
  rw [randomSubset]
  by_cases hmany : setTypeSize s < count * subStrategyMul % 2 ^ 64
  · obtain ⟨es, hes, hnodup, hstrings⟩ := setTypeElements_spec h
    have hcopies : keysOf (es.map copyElement) = es.map fun e => getDecodedObject e.object := by
      rw [keysOf, List.map_map]
      exact map_congr_left fun e _ => copyElement_bytes e
    obtain ⟨d, hadd, hd, hmem⟩ := dictAddAll_spec (es.map copyElement) [] (by rw [hcopies]; exact hnodup) nodup_nil fun _ _ => not_mem_nil
    have hsame : (keysOf d).toFinset = S := by
      rw [← hstrings]
      ext b
      rw [List.mem_toFinset, List.mem_toFinset, hmem, hcopies]
      exact or_iff_left not_mem_nil
    have hsize : d.length = setTypeSize s := by
      rw [h.card, ← hsame, toFinset_card_of_nodup hd, keysOf, length_map]
    obtain ⟨d', hremove, hd', hlen, hin⟩ := removeRandom_spec random (setTypeSize s - count) 0 hd (by omega)
    have hcard := h.card
    rw [if_pos hmany, hes, bind_some, hadd, bind_some, if_pos hsize]
    exact ⟨d', hremove, hd', by omega, fun b hb => by rw [← hsame, List.mem_toFinset]; exact hin b hb⟩
  · rw [if_neg hmany]
    refine addRandom_spec h hne fuel 0 (d := []) nodup_nil (fun b hb => absurd hb not_mem_nil) ?_ (Nat.zero_le _) (by rwa [Nat.zero_add])
    rfl

/-- **What the reply should be**: so many members, and all different unless the count is negative. -/
def RightSample (l : ℤ) (S : Finset (List UInt8)) (reply : Reply) : Prop :=
  ∃ bulks, reply = .multibulk bulks.length bulks ∧ (∀ b ∈ bulks, b ∈ S) ∧ (0 ≤ l → bulks.Nodup ∧ (bulks.length : ℤ) = min l S.card) ∧
    (l < 0 → (bulks.length : ℤ) = -l)

/-- **The conversions keep the count**: its lower 32 bits are the count, or are no less than the size, which then fits an `int`; a negative one has an
opposite. -/
def CountKept (l : ℤ) (size : ℕ) : Prop :=
  (0 ≤ l → (l < 2 ^ 32 ∨ (size : ℤ) ≤ l % 2 ^ 32) ∧ (l % 2 ^ 32 < size ∨ size < 2 ^ 31)) ∧ l ≠ -2 ^ 63

instance (l : ℤ) (size : ℕ) : Decidable (CountKept l size) := inferInstanceAs (Decidable (_ ∧ _))

variable {l : ℤ}

theorem right_multibulk {n : ℤ} {bulks : List (List UInt8)} : RightSample l S (.multibulk n bulks) ↔
    n = bulks.length ∧ (∀ b ∈ bulks, b ∈ S) ∧ (0 ≤ l → bulks.Nodup ∧ (bulks.length : ℤ) = min l S.card) ∧ (l < 0 → (bulks.length : ℤ) = -l) := by
  constructor
  · rintro ⟨bulks', hreply, h⟩
    cases hreply
    exact ⟨rfl, h⟩
  · rintro ⟨rfl, h⟩
    exact ⟨bulks, rfl, h⟩

variable {db : Db}

theorem right_of_outcome {reply : Reply} {o : Option (Db × Reply)} (ho : o = some (db, reply)) :
    (∃ reply, o = some (db, reply) ∧ RightSample l S reply) ↔ RightSample l S reply := by
  constructor
  · rintro ⟨reply', ho', h⟩
    rw [ho] at ho'
    cases ho'
    exact h
  · exact fun h => ⟨reply, ho, h⟩

theorem sunion_self (hserver : server.Modest) {key : Sds} (hkey : db key = some (.set s)) (h : s.Represents S) :
    ∃ bulks, sunionDiffGenericCommand server db [key] none .union = some (db, .multibulk ((S.card : ℤ).bmod (2 ^ 32)) bulks) ∧ bulks.Nodup ∧
      bulks.toFinset = S := by
  have hlookup : lookupSets db [key] = some [some s] := by
    rw [lookupSets, hkey]
    rfl
  obtain ⟨r, hloop, hr⟩ := union_spec hserver (List.Forall₂.cons (Or.inr ⟨s, rfl, h⟩) List.Forall₂.nil) 0 result_empty
  rw [foldl_cons, foldl_nil, Finset.empty_union] at hr
  obtain ⟨bulks, hreply, hnodup, hset⟩ := replySet_spec hr.represents r.2
  refine ⟨bulks, ?_, hnodup, hset⟩
  rw [sunionDiffGenericCommand, hlookup]
  dsimp only
  rw [hloop, bind_some, hreply, map_some, hr.count]

theorem srandmember_nonneg (hserver : server.Modest) {key countArg : Sds} (hcount : getLongLongFromObject countArg.1 = some l)
    (hkey : db key = some (.set s)) (h : s.Represents S) (hne : S.Nonempty) (hdrawn : min (l.toNat % 2 ^ 32) S.card ≤ (drawn s random fuel).card) (hl : 0 ≤ l) :
    (∃ reply, srandmemberWithCountCommand server random fuel db key countArg = some (db, reply) ∧ RightSample l S reply) ↔ CountKept l S.card := by
  have hmod : ((l.toNat % 2 ^ 32 : ℕ) : ℤ) = l % 2 ^ 32 := by
    push_cast
    rw [Int.toNat_of_nonneg hl]
  have hkept : CountKept l S.card ↔ (l < 2 ^ 32 ∨ (S.card : ℤ) ≤ l % 2 ^ 32) ∧ (l % 2 ^ 32 < S.card ∨ S.card < 2 ^ 31) := by
    rw [CountKept, forall_prop_of_true hl]
    exact and_iff_left (by omega)
  rw [hkept, srandmemberWithCountCommand, hcount]
  dsimp only
  rw [hkey, countOf, if_pos hl]
  dsimp only
  generalize l.toNat % 2 ^ 32 = count at hmod hdrawn
  by_cases hzero : count = 0
  · rw [right_of_outcome (if_pos hzero), emptymultibulk, right_multibulk]
    constructor
    · rintro ⟨-, -, hright, -⟩
      have hlen := (hright hl).2
      rw [length_nil] at hlen
      omega
    · intro hkept
      refine ⟨rfl, fun b hb => absurd hb not_mem_nil, fun _ => ⟨nodup_nil, ?_⟩, fun hneg => absurd hl (not_le.2 hneg)⟩
      rw [length_nil]
      omega
  rw [if_neg hzero, if_neg (Bool.noConfusion), h.card]
  by_cases hall : S.card ≤ count
  · -- the whole set
    obtain ⟨bulks, hreply, hnodup, hset⟩ := sunion_self hserver hkey h
    have hlen : bulks.length = S.card := by rw [← hset, toFinset_card_of_nodup hnodup]
    have hin : ∀ b ∈ bulks, b ∈ S := fun b hb => by
      rw [← hset, List.mem_toFinset]
      exact hb
    have hheader : (S.card : ℤ).bmod (2 ^ 32) = S.card ↔ S.card < 2 ^ 31 := by
      rw [Int.bmod_def]
      split <;> omega
    rw [if_pos hall, right_of_outcome hreply, right_multibulk, hlen, hheader]
    constructor
    · rintro ⟨hheader, -⟩
      exact ⟨Or.inr (by omega), Or.inr hheader⟩
    · intro hkept
      exact ⟨by omega, hin, fun _ => ⟨hnodup, by omega⟩, fun hneg => absurd hl (not_le.2 hneg)⟩
  · obtain ⟨d, hsubset, hnodup, hlen, hin⟩ := randomSubset_spec h hne (show count < 2 ^ 32 by omega) (by omega)
      (show count ≤ (drawn s random fuel).card by omega)
    have hheader : (count : ℤ).bmod (2 ^ 64) = count := by
      rw [Int.bmod_def]
      split <;> omega
    have hbulks : (keysOf d).length = count := by rw [keysOf, length_map, hlen]
    rw [h.card] at hsubset
    rw [if_neg hall, hsubset, map_some, right_of_outcome rfl, right_multibulk, hbulks, hheader]
    constructor
    · rintro ⟨-, -, hright, -⟩
      omega
    · intro hkept
      exact ⟨rfl, hin, fun _ => ⟨hnodup, by omega⟩, fun hneg => absurd hl (not_le.2 hneg)⟩

theorem srandmember_neg {key countArg : Sds} (hcount : getLongLongFromObject countArg.1 = some l)
    (hkey : db key = some (.set s)) (h : s.Represents S) (hne : S.Nonempty) (hl : l < 0) :
    (∃ reply, srandmemberWithCountCommand server random fuel db key countArg = some (db, reply) ∧ RightSample l S reply) ↔ CountKept l S.card := by
  have hrange := StringType.getLongLongFromObject_range hcount
  have hmod : (((-l).toNat % 2 ^ 64 : ℕ) : ℤ) = -l := by omega
  have hkept : CountKept l S.card ↔ l ≠ -2 ^ 63 := and_iff_right fun hnonneg => absurd hl (not_lt.2 hnonneg)
  rw [hkept, srandmemberWithCountCommand, hcount]
  dsimp only
  rw [hkey, countOf, if_neg (not_le.2 hl)]
  dsimp only
  generalize (-l).toNat % 2 ^ 64 = count at hmod
  obtain ⟨bulks, hsample, hlen, hin⟩ := sampleElements_spec h hne random count 0
  have hheader : (count : ℤ).bmod (2 ^ 64) = count ↔ l ≠ -2 ^ 63 := by
    rw [Int.bmod_def]
    split <;> omega
  rw [if_neg (by omega), if_pos rfl, hsample, map_some, right_of_outcome rfl, right_multibulk, hlen, hheader]
  exact ⟨And.left, fun hne => ⟨hne, hin, fun hnonneg => absurd hl (not_lt.2 hnonneg), fun _ => hmod⟩⟩

/-- **SRANDMEMBER gives as many members as it should**, with whatever choices that come upon enough members, in exactly the cases where the conversions
keep the count; the keys hold what they held. -/
theorem srandmember_iff (hserver : server.Modest) {fuel : ℕ} {db : Db} {key countArg : Sds} {l : ℤ} (hcount : getLongLongFromObject countArg.1 = some l)
    (hkey : db key = some (.set s)) (h : s.Represents S) (hne : S.Nonempty) (hdrawn : min (l.toNat % 2 ^ 32) S.card ≤ (drawn s random fuel).card) :
    (∃ reply, srandmemberWithCountCommand server random fuel db key countArg = some (db, reply) ∧ RightSample l S reply) ↔ CountKept l S.card := by
  by_cases hl : 0 ≤ l
  · exact srandmember_nonneg hserver hcount hkey h hne hdrawn hl
  · exact srandmember_neg hcount hkey h hne (not_le.1 hl)

def threeKeys : List Robj := [.raw [97], .int ⟨5, by omega⟩, .raw [98]]

def threeMembers : Db := fun key => if key = ⟨[115], by simp⟩ then some (.set (.ht threeKeys)) else none

theorem threeKeys_represents : (SetObj.ht threeKeys).Represents {[97], [53], [98]} := by
  have hset : (keysOf threeKeys).toFinset = {[97], [53], [98]} := by decide
  exact .ht (by decide)

theorem srandmember_two :
    (∃ reply, srandmemberWithCountCommand ⟨512, fun _ => 0⟩ id 3 threeMembers ⟨[115], by simp⟩ ⟨[50], by simp⟩ = some (threeMembers, reply) ∧
      RightSample 2 {[97], [53], [98]} reply) ↔ CountKept 2 3 :=
  srandmember_iff (by decide) (by decide) rfl threeKeys_represents ⟨[97], by decide⟩ (by decide)

/-- **2^32 members are asked for**: the count is 0 then, and the reply is empty. -/
theorem srandmember_lost :
    ¬ ∃ reply, srandmemberWithCountCommand ⟨512, fun _ => 0⟩ id 3 threeMembers ⟨[115], by simp⟩ ⟨[52, 50, 57, 52, 57, 54, 55, 50, 57, 54], by simp⟩ =
        some (threeMembers, reply) ∧ RightSample (2 ^ 32) {[97], [53], [98]} reply := by
  have hcount : getLongLongFromObject [52, 50, 57, 52, 57, 54, 55, 50, 57, 54] = some (2 ^ 32) := by decide
  rw [srandmember_nonneg (by decide) hcount rfl threeKeys_represents ⟨[97], by decide⟩ (by decide) (by norm_num)]
  decide

end KVStores.Redis.SetType
