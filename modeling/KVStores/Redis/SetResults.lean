import KVStores.Redis.SetInter

/-!
# What the commands on sets should do

The commands on finite sets of strings (`SetCommand.plain`), and those of t_set.c on sets in two encodings (`SetCommand.exec`). Here are the unions and the
differences (`sunion_right`, `sdiff_right`).
-/

namespace KVStores.Redis.SetType

open List Option Function

/-- A finite set of strings, or something of another type. -/
inductive Plain
  | set (S : Finset (List UInt8))
  | other
deriving DecidableEq

abbrev PlainDb : Type := Sds → Option Plain

inductive ObjStands : Option Obj → Option Plain → Prop
  | missing : ObjStands none none
  | other : ObjStands (some .other) (some .other)
  | set {s : SetObj} {S : Finset (List UInt8)} (h : s.Represents S) (hsmall : s.Small) : ObjStands (some (.set s)) (some (.set S))

/-- **What all keys hold, and what they stand for.** -/
def DbStands (db : Db) (D : PlainDb) : Prop := ∀ key, ObjStands (db key) (D key)

def membersOf (D : PlainDb) (key : Sds) : Finset (List UInt8) :=
  match D key with
  | some (.set S) => S
  | some .other => ∅
  | none => ∅

def AnyOther (D : PlainDb) (keys : List Sds) : Prop := ∃ key ∈ keys, D key = some .other

instance (D : PlainDb) (keys : List Sds) : Decidable (AnyOther D keys) := inferInstanceAs (Decidable (∃ key ∈ keys, _))

inductive PlainReply
  | unspecified
  | integer (n : ℤ)
  | members (S : Finset (List UInt8))

/-- **What a reply means**: the members are counted, and each of them is there once. -/
def Reply.Means (reply : Reply) : PlainReply → Prop
  | .unspecified => True
  | .integer n => reply = .integer n
  | .members S => ∃ bulks, reply = .multibulk bulks.length bulks ∧ bulks.Nodup ∧ bulks.toFinset = S

def storePlain (D : PlainDb) (key : Sds) (S : Finset (List UInt8)) : PlainDb := Function.update D key (if S = ∅ then none else some (.set S))

def strings (values : List Sds) : Finset (List UInt8) := (values.map Subtype.val).toFinset

/-- A command with its arguments; where there are several, there is at least one. -/
inductive SetCommand
  | sinter (key : Sds) (keys : List Sds)
  | sinterstore (dst key : Sds) (keys : List Sds)
  | sunion (key : Sds) (keys : List Sds)
  | sunionstore (dst key : Sds) (keys : List Sds)
  | sdiff (key : Sds) (keys : List Sds)
  | sdiffstore (dst key : Sds) (keys : List Sds)
  | sadd (key value : Sds) (values : List Sds)
  | srem (key value : Sds) (values : List Sds)
  | smove (src dst ele : Sds)
  | sismember (key ele : Sds)

@[grind =] def SetCommand.exec (server : Server) : SetCommand → Db → Option (Db × Reply)
  | sinter key keys, db => sinterGenericCommand server db (key :: keys) none
  | sinterstore dst key keys, db => sinterGenericCommand server db (key :: keys) (some dst)
  | sunion key keys, db => sunionDiffGenericCommand server db (key :: keys) none .union
  | sunionstore dst key keys, db => sunionDiffGenericCommand server db (key :: keys) (some dst) .union
  | sdiff key keys, db => sunionDiffGenericCommand server db (key :: keys) none .diff
  | sdiffstore dst key keys, db => sunionDiffGenericCommand server db (key :: keys) (some dst) .diff
  | sadd key value values, db => saddCommand server db key value values
  | srem key value values, db => sremCommand server db key (value :: values)
  | smove src dst ele, db => smoveCommand server db src dst ele
  | sismember key ele, db => sismemberCommand db key ele

def interOf (D : PlainDb) (key : Sds) (keys : List Sds) : Finset (List UInt8) := (keys.map (membersOf D)).foldl (· ∩ ·) (membersOf D key)

def unionOf (D : PlainDb) (key : Sds) (keys : List Sds) : Finset (List UInt8) := (keys.map (membersOf D)).foldl (· ∪ ·) (membersOf D key)

def diffOf (D : PlainDb) (key : Sds) (keys : List Sds) : Finset (List UInt8) := without (membersOf D key) (keys.map (membersOf D))

def readPlain (D : PlainDb) (keys : List Sds) (S : Finset (List UInt8)) : PlainDb × PlainReply :=
  if AnyOther D keys then (D, .unspecified) else (D, .members S)

def storedPlain (D : PlainDb) (keys : List Sds) (dst : Sds) (S : Finset (List UInt8)) : PlainDb × PlainReply :=
  if AnyOther D keys then (D, .unspecified) else (storePlain D dst S, .integer S.card)

/-- **What a command should do**, on finite sets. -/
@[grind =] def SetCommand.plain : SetCommand → PlainDb → PlainDb × PlainReply
  | sinter key keys, D => readPlain D (key :: keys) (interOf D key keys)
  | sinterstore dst key keys, D => storedPlain D (key :: keys) dst (interOf D key keys)
  | sunion key keys, D => readPlain D (key :: keys) (unionOf D key keys)
  | sunionstore dst key keys, D => storedPlain D (key :: keys) dst (unionOf D key keys)
  | sdiff key keys, D => readPlain D (key :: keys) (diffOf D key keys)
  | sdiffstore dst key keys, D => storedPlain D (key :: keys) dst (diffOf D key keys)
  | sadd key value values, D =>
    if AnyOther D [key] then (D, .unspecified)
    else
      let S := membersOf D key
      let S' := S ∪ strings (value :: values)
      (Function.update D key (some (.set S')), .integer (S'.card - S.card : ℕ))
  | srem key value values, D =>
    if AnyOther D [key] then (D, .unspecified)
    else
      let S := membersOf D key
      let S' := S \ strings (value :: values)
      (if S' = S then D else storePlain D key S', .integer (S.card - S'.card : ℕ))
  | smove src dst ele, D =>
    if AnyOther D [src, dst] then (D, .unspecified)
    else if ele.1 ∉ membersOf D src then (D, .integer 0)
    else if src = dst then (D, .integer 1)
    else (Function.update (storePlain D src ((membersOf D src).erase ele.1)) dst (some (.set (insert ele.1 (membersOf D dst)))), .integer 1)
  | sismember key ele, D => if AnyOther D [key] then (D, .unspecified) else (D, .integer (if ele.1 ∈ membersOf D key then 1 else 0))

/-- A key is missing, and one of another type comes behind it. -/
@[grind =] def MissingFirst (D : PlainDb) : List Sds → Prop
  | [] => False
  | key :: keys =>
    match D key with
    | none => AnyOther D keys
    | some .other => False
    | some (.set _) => MissingFirst D keys

/-- **Where the code does what it should**: SINTERSTORE does not delete its target for a missing key before it sees one of another type, the `int` that
counts a union or a difference neither overflows nor comes back to 0 early, and SMOVE of a set to itself is about a member. -/
@[grind =] def SetCommand.Kept : SetCommand → PlainDb → Prop
  | sinter _ _, _ => True
  | sinterstore dst key keys, D => ¬ (MissingFirst D (key :: keys) ∧ D dst ≠ none)
  | sunion key keys, D => AnyOther D (key :: keys) ∨ (unionOf D key keys).card < 2 ^ 31
  | sunionstore _ _ _, _ => True
  | sdiff key keys, D => AnyOther D (key :: keys) ∨ ((diffOf D key keys).card < 2 ^ 31 ∧ ¬ EndsEarly (membersOf D key) (keys.map (membersOf D)))
  | sdiffstore _ key keys, D => AnyOther D (key :: keys) ∨ ¬ EndsEarly (membersOf D key) (keys.map (membersOf D))
  | sadd _ _ _, _ => True
  | srem _ _ _, _ => True
  | smove src dst ele, D => ¬ (src = dst ∧ ∃ S, D src = some (.set S) ∧ ele.1 ∉ S)
  | sismember _ _, _ => True

def Right (o : Option (Db × Reply)) (p : PlainDb × PlainReply) : Prop := ∃ db' reply, o = some (db', reply) ∧ DbStands db' p.1 ∧ reply.Means p.2

variable {server : Server} {db : Db} {D : PlainDb} {s : SetObj} {S : Finset (List UInt8)} {key dst : Sds} {keys : List Sds} {o : Option Obj}

theorem DbStands.update (h : DbStands db D) (key : Sds) {p : Option Plain} (ho : ObjStands o p) :
    DbStands (Function.update db key o) (Function.update D key p) := by
  intro k
  by_cases hk : k = key
  · subst hk
    rw [update_self, update_self]
    exact ho
  · rw [update_of_ne hk, update_of_ne hk]
    exact h k

theorem DbStands.set (h : DbStands db D) (hkey : db key = some (.set s)) : D key = some (.set (membersOf D key)) ∧ s.Represents (membersOf D key) ∧ s.Small := by
  have hstands := h key
  rw [hkey] at hstands
  cases hD : D key with
  | none => rw [hD] at hstands; cases hstands
  | some p =>
    rw [hD] at hstands
    cases hstands with
    | @set _ S hrep hsmall =>
      have hmembers : membersOf D key = S := by rw [membersOf, hD]
      rw [hmembers]
      exact ⟨rfl, hrep, hsmall⟩

theorem DbStands.missing (h : DbStands db D) (hkey : db key = none) : D key = none ∧ membersOf D key = ∅ := by
  have hstands := h key
  rw [hkey] at hstands
  cases hD : D key with
  | none => exact ⟨rfl, by rw [membersOf, hD]⟩
  | some p => rw [hD] at hstands; cases hstands

theorem DbStands.other (h : DbStands db D) (hkey : db key = some .other) : D key = some .other := by
  have hstands := h key
  rw [hkey] at hstands
  cases hD : D key with
  | none => rw [hD] at hstands; cases hstands
  | some p =>
    rw [hD] at hstands
    cases hstands with
    | other => rfl

theorem anyOther_cons : AnyOther D (key :: keys) ↔ D key = some .other ∨ AnyOther D keys := by
  rw [AnyOther, exists_mem_cons_iff]
  rfl

theorem SetObj.Represents.unique {S' : Finset (List UInt8)} (h : s.Represents S) (h' : s.Represents S') : S = S' := by
  obtain ⟨es, hes, -, hset⟩ := setTypeElements_spec h
  obtain ⟨es', hes', -, hset'⟩ := setTypeElements_spec h'
  rw [hes] at hes'
  cases hes'
  rw [← hset, ← hset']

theorem right_iff {db' : Db} {reply : Reply} {p : PlainDb × PlainReply} : Right (some (db', reply)) p ↔ DbStands db' p.1 ∧ reply.Means p.2 := by
  constructor
  · rintro ⟨db₁, reply₁, ho, h⟩
    cases ho
    exact h
  · exact fun h => ⟨db', reply, rfl, h⟩

theorem right_other (h : DbStands db D) (reply : Reply) {p : PlainDb × PlainReply} (hp : p = (D, .unspecified)) : Right (some (db, reply)) p := by
  subst hp
  exact right_iff.2 ⟨h, trivial⟩

theorem storeResult_stands (h : DbStands db D) (dst : Sds) (hs : s.Represents S) (hsmall : s.Small) :
    DbStands (storeResult db dst s).1 (storePlain D dst S) ∧ (storeResult db dst s).2 = .integer S.card := by
  have hcard := hs.card
  rw [storeResult, storePlain]
  by_cases hempty : S = ∅
  · rw [if_pos hempty]
    have hzero : S.card = 0 := Finset.card_eq_zero.2 hempty
    rw [if_neg (by omega), hzero]
    exact ⟨h.update dst .missing, rfl⟩
  · have hpos : 0 < S.card := Finset.card_pos.2 (Finset.nonempty_iff_ne_empty.2 hempty)
    have hupdate : dbAdd (dbDelete db dst) dst s = Function.update db dst (some (.set s)) := update_idem _ _ _
    rw [if_neg hempty, if_pos (by omega), hupdate, hcard]
    exact ⟨h.update dst (.set hs hsmall), rfl⟩

theorem lookupSets_spec (h : DbStands db D) : ∀ (keys : List Sds), (AnyOther D keys → lookupSets db keys = none) ∧
      (¬ AnyOther D keys → ∃ sets, lookupSets db keys = some sets ∧ List.Forall₂ Stands sets (keys.map (membersOf D))) := by
  intro keys
  induction keys with
  | nil => exact ⟨fun ⟨_, hin, _⟩ => absurd hin not_mem_nil, fun _ => ⟨[], rfl, List.Forall₂.nil⟩⟩
  | cons key keys ih =>
    rw [anyOther_cons, lookupSets]
    cases hdb : db key with
    | none =>
      obtain ⟨hD, hmembers⟩ := h.missing hdb
      rw [hD, or_iff_right (fun he => by cases he)]
      refine ⟨fun hother => by dsimp only; rw [ih.1 hother, map_none], fun hother => ?_⟩
      obtain ⟨sets, hlookup, hsets⟩ := ih.2 hother
      exact ⟨none :: sets, by dsimp only; rw [hlookup, map_some], List.Forall₂.cons (Or.inl ⟨rfl, hmembers⟩) hsets⟩
    | some o =>
      cases o with
      | other => exact ⟨fun _ => rfl, fun hother => absurd (Or.inl (h.other hdb)) hother⟩
      | set s =>
        obtain ⟨hD, hs, -⟩ := h.set hdb
        rw [hD, or_iff_right (fun he => by cases he)]
        refine ⟨fun hother => by dsimp only; rw [ih.1 hother, map_none], fun hother => ?_⟩
        obtain ⟨sets, hlookup, hsets⟩ := ih.2 hother
        exact ⟨some s :: sets, by dsimp only; rw [hlookup, map_some], List.Forall₂.cons (Or.inr ⟨s, rfl, hs⟩) hsets⟩

/-- What `sunionDiffGenericCommand` does with the result of its loop. -/
def finish (db : Db) (dstkey : Option Sds) (r : SetObj × ℤ) : Option (Db × Reply) :=
  match dstkey with
  | none => (replySet r.2 r.1).map fun reply => (db, reply)
  | some dstkey => some (storeResult db dstkey r.1)

variable {r : SetObj × ℤ}

theorem sunionDiff_eq {sets : List (Option SetObj)} {op : SetOp} (hlookup : lookupSets db keys = some sets)
    (hloop : sunionDiffLoop server op 0 sets (.intset intsetNew, 0) = some r) (dstkey : Option Sds) :
    sunionDiffGenericCommand server db keys dstkey op = finish db dstkey r := by
  rw [sunionDiffGenericCommand, hlookup]
  dsimp only
  rw [hloop, bind_some]
  rfl

variable {T : Finset (List UInt8)}

theorem finish_read (h : DbStands db D) (hr : Result S r) : Right (finish db none r) (D, .members T) ↔ S = T ∧ T.card < 2 ^ 31 := by
  obtain ⟨bulks, hreply, hnodup, hset⟩ := replySet_spec hr.represents r.2
  have hlen : bulks.length = S.card := by rw [← hset, toFinset_card_of_nodup hnodup]
  have hheader : (S.card : ℤ).bmod (2 ^ 32) = S.card ↔ S.card < 2 ^ 31 := by
    rw [Int.bmod_def]
    split <;> omega
  rw [finish, hreply, map_some, right_iff, and_iff_right h]
  constructor
  · rintro ⟨bulks', heq, -, hset'⟩
    obtain ⟨hheader', rfl⟩ := Reply.multibulk.inj heq
    have hsame : S = T := hset.symm.trans hset'
    subst hsame
    refine ⟨rfl, hheader.1 ?_⟩
    rw [← hr.count, hheader', hlen]
  · rintro ⟨rfl, hsmall⟩
    exact ⟨bulks, by rw [hr.count, hheader.2 hsmall, hlen], hnodup, hset⟩

theorem ObjStands.unique {p p' : Option Plain} (h : ObjStands o p) (h' : ObjStands o p') : p = p' := by
  cases h with
  | missing => cases h'; rfl
  | other => cases h'; rfl
  | set hs _ =>
    cases h' with
    | set hs' _ => rw [hs.unique hs']

theorem finish_store (h : DbStands db D) (hr : Result S r) :
    Right (finish db (some dst) r) (storePlain D dst T, .integer T.card) ↔ S = T := by
  obtain ⟨hdb, hreply⟩ := storeResult_stands h dst hr.represents hr.small
  rw [finish, ← Prod.mk.eta (p := storeResult db dst r.1), right_iff, hreply]
  constructor
  · rintro ⟨hdb', -⟩
    have hsame : storePlain D dst S dst = storePlain D dst T dst := (hdb dst).unique (hdb' dst)
    rw [storePlain, storePlain, update_self, update_self] at hsame
    by_cases hS : S = ∅
    · by_cases hT : T = ∅
      · rw [hS, hT]
      · rw [if_pos hS, if_neg hT] at hsame
        cases hsame
    · by_cases hT : T = ∅
      · rw [if_neg hS, if_pos hT] at hsame
        cases hsame
      · rw [if_neg hS, if_neg hT] at hsame
        cases hsame
        rfl
  · rintro rfl
    exact ⟨hdb, rfl⟩

theorem sunionDiff_other (h : DbStands db D) (hother : AnyOther D keys) (dstkey : Option Sds) (op : SetOp) :
    sunionDiffGenericCommand server db keys dstkey op = some (db, .wrongtypeerr) := by
  rw [sunionDiffGenericCommand, (lookupSets_spec h keys).1 hother]

theorem sunion_result (hserver : server.Modest) (h : DbStands db D) (hother : ¬ AnyOther D (key :: keys)) (dstkey : Option Sds) :
    ∃ r, sunionDiffGenericCommand server db (key :: keys) dstkey .union = finish db dstkey r ∧ Result (unionOf D key keys) r := by
  obtain ⟨sets, hlookup, hsets⟩ := (lookupSets_spec h (key :: keys)).2 hother
  obtain ⟨r, hloop, hr⟩ := union_spec hserver hsets 0 result_empty
  rw [map_cons, foldl_cons, Finset.empty_union] at hr
  exact ⟨r, sunionDiff_eq hlookup hloop dstkey, hr⟩

theorem sdiff_result (hserver : server.Modest) (h : DbStands db D) (hother : ¬ AnyOther D (key :: keys)) (dstkey : Option Sds) :
    ∃ r, sunionDiffGenericCommand server db (key :: keys) dstkey .diff = finish db dstkey r ∧ Result (cutFrom (keys.map (membersOf D)) (membersOf D key)) r := by
  obtain ⟨sets, hlookup, hsets⟩ := (lookupSets_spec h (key :: keys)).2 hother
  cases hsets with
  | cons hset hsets =>
    obtain ⟨r, hloop, hr⟩ := diff_spec hserver hset hsets
    exact ⟨r, sunionDiff_eq hlookup hloop dstkey, hr⟩

theorem sunion_right (hserver : server.Modest) (h : DbStands db D) (key : Sds) (keys : List Sds) :
    Right ((SetCommand.sunion key keys).exec server db) ((SetCommand.sunion key keys).plain D) ↔ (SetCommand.sunion key keys).Kept D := by
  rw [SetCommand.exec, SetCommand.plain, SetCommand.Kept, readPlain]
  by_cases hother : AnyOther D (key :: keys)
  · rw [if_pos hother, sunionDiff_other h hother]
    exact iff_of_true (right_other h _ rfl) (Or.inl hother)
  · obtain ⟨r, heq, hr⟩ := sunion_result hserver h hother none
    rw [if_neg hother, heq, finish_read h hr, or_iff_right hother]
    exact and_iff_right rfl

theorem sunionstore_right (hserver : server.Modest) (h : DbStands db D) (dst key : Sds) (keys : List Sds) :
    Right ((SetCommand.sunionstore dst key keys).exec server db) ((SetCommand.sunionstore dst key keys).plain D) := by
  rw [SetCommand.exec, SetCommand.plain, storedPlain]
  by_cases hother : AnyOther D (key :: keys)
  · rw [if_pos hother, sunionDiff_other h hother]
    exact right_other h _ rfl
  · obtain ⟨r, heq, hr⟩ := sunion_result hserver h hother (some dst)
    rw [if_neg hother, heq]
    exact (finish_store h hr).2 rfl

theorem sdiff_right (hserver : server.Modest) (h : DbStands db D) (key : Sds) (keys : List Sds) :
    Right ((SetCommand.sdiff key keys).exec server db) ((SetCommand.sdiff key keys).plain D) ↔ (SetCommand.sdiff key keys).Kept D := by
  rw [SetCommand.exec, SetCommand.plain, SetCommand.Kept, readPlain]
  by_cases hother : AnyOther D (key :: keys)
  · rw [if_pos hother, sunionDiff_other h hother]
    exact iff_of_true (right_other h _ rfl) (Or.inl hother)
  · obtain ⟨r, heq, hr⟩ := sdiff_result hserver h hother none
    rw [if_neg hother, heq, finish_read h hr, or_iff_right hother, diffOf, cutFrom_eq_iff, and_comm]

theorem sdiffstore_right (hserver : server.Modest) (h : DbStands db D) (dst key : Sds) (keys : List Sds) :
    Right ((SetCommand.sdiffstore dst key keys).exec server db) ((SetCommand.sdiffstore dst key keys).plain D) ↔
      (SetCommand.sdiffstore dst key keys).Kept D := by
  rw [SetCommand.exec, SetCommand.plain, SetCommand.Kept, storedPlain]
  by_cases hother : AnyOther D (key :: keys)
  · rw [if_pos hother, sunionDiff_other h hother]
    exact iff_of_true (right_other h _ rfl) (Or.inl hother)
  · obtain ⟨r, heq, hr⟩ := sdiff_result hserver h hother (some dst)
    rw [if_neg hother, heq, finish_store h hr, or_iff_right hother, diffOf, cutFrom_eq_iff]

end KVStores.Redis.SetType
