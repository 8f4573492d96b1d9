import Mathlib.Data.List.Permutation
import KVStores.MemcacheDb.Workers

/-!
# What the workers agree on

The lock keeps the sections of `do_store_item` and `do_add_delta` apart, but `delete` does not take it. When it removes an item
that a section has read and is about to put back, the item is there again.
-/

namespace KVStores.MemcacheDb

open List Option Function

open Linearize

variable {itemBufSize : ℕ} {o : Outcome} {r : Request} {t : Task} {w w' : ℕ} {s s' : Workers} {db db' : Store}

def Task.over : Task → Option Reply
  | .outString reply => some reply
  | .unlock (.outString reply) => some reply
  | _ => none

variable {reply : Reply}

theorem run_over (h : t.over = some reply) (db : Store) : t.run o db = (reply, db) := by
  cases t with
  | outString rep => rw [Task.run, Option.some.inj h]
  | unlock next =>
    cases next with
    | outString rep => rw [Task.run, Task.run, Option.some.inj h]
    | _ => exact absurd h.symm (some_ne_none reply)
  | _ => exact absurd h.symm (some_ne_none reply)

def Leaves (t : Task) : Prop := ∃ reply, t = .unlock (.outString reply)

def Writes (key : Key) (t : Task) : Prop := ∃ it next, t = .itemPut key it next ∧ ∀ success, Leaves (next success)

def Request.updates (r : Request) : Bool :=
  match r.cmd with
  | .update comm _ => comm == .replace || comm == .append || comm == .prepend
  | .arithmetic .. => true
  | _ => false

inductive Reads (r : Request) : Task → Prop
  | get {ulen : ℕ} {next : Option Item → Task} : (∀ found, Leaves (next found) ∨ Writes r.key (next found) ∧ r.updates = true) →
      Reads r (.itemGet r.key ulen next)
  | exist {next : Bool → Task} : (∀ found, Leaves (next found) ∨ Writes r.key (next found) ∧ (r.updates = true ∨ found = false)) →
      Reads r (.itemExists r.key next)

inductive Inside (r : Request) (t : Task) : Prop
  | reads : Reads r t → Inside r t
  | writes : Writes r.key t → Inside r t
  | leaves : Leaves t → Inside r t

inductive Outside (r : Request) : Task → Prop
  | get {ulen : ℕ} {next : Option Item → Task} : (∀ found, ∃ reply, next found = .outString reply) → Outside r (.itemGet r.key ulen next)
  | delete {next : DelResult → Task} : (∀ ret, ∃ reply, next ret = .outString reply) → Outside r (.itemDelete r.key next)
  | lock {next : Task} : Reads r next ∨ Writes r.key next → Outside r (.lock next)
  | answer {reply : Reply} : Outside r (.outString reply)

theorem task_outside (itemBufSize : ℕ) (r : Request) : Outside r (r.task itemBufSize) := by
  obtain ⟨key, cmd, o⟩ := r
  cases cmd with
  | update comm it =>
    have hwrites : Writes key (.itemPut key it fun ret => .unlock (.outString (if ret = true then .stored else .notStored))) :=
      ⟨it, _, rfl, fun _ => ⟨_, rfl⟩⟩
    refine Outside.lock ?_
    cases comm with
    | set => exact Or.inr hwrites
    | add =>
      refine Or.inl (Reads.exist fun found => ?_)
      cases found with
      | true => exact Or.inl ⟨_, rfl⟩
      | false => exact Or.inr ⟨hwrites, Or.inr rfl⟩
    | replace =>
      refine Or.inl (Reads.exist fun found => ?_)
      cases found with
      | true => exact Or.inr ⟨hwrites, Or.inl rfl⟩
      | false => exact Or.inl ⟨_, rfl⟩
    | append =>
      refine Or.inl (Reads.get fun found => ?_)
      cases found with
      | none => exact Or.inl ⟨_, rfl⟩
      | some oldIt =>
        by_cases halloc : o.allocFails = true
        · exact Or.inl ⟨_, if_pos halloc⟩
        · exact Or.inr ⟨⟨_, _, if_neg halloc, fun _ => ⟨_, rfl⟩⟩, rfl⟩
    | prepend =>
      refine Or.inl (Reads.get fun found => ?_)
      cases found with
      | none => exact Or.inl ⟨_, rfl⟩
      | some oldIt =>
        by_cases halloc : o.allocFails = true
        · exact Or.inl ⟨_, if_pos halloc⟩
        · exact Or.inr ⟨⟨_, _, if_neg halloc, fun _ => ⟨_, rfl⟩⟩, rfl⟩
  | arithmetic incr delta =>
    refine Outside.lock (Or.inl (Reads.get fun found => ?_))
    cases found with
    | none => exact Or.inl ⟨_, rfl⟩
    | some oldIt =>
      dsimp only
      cases strtoull (oldIt.data ++ o.behind) with
      | none => exact Or.inl ⟨_, rfl⟩
      | some value =>
        by_cases halloc : o.allocFails = true
        · exact Or.inl ⟨_, if_pos halloc⟩
        · refine Or.inr ⟨⟨_, _, if_neg halloc, fun success => ?_⟩, rfl⟩
          cases success with
          | true => exact ⟨_, rfl⟩
          | false => exact ⟨_, rfl⟩
  | delete =>
    refine Outside.delete fun ret => ?_
    cases ret with
    | success => exact ⟨_, rfl⟩
    | notFound => exact ⟨_, rfl⟩
    | serverError => exact ⟨_, rfl⟩
  | get => exact Outside.get fun found => ⟨_, rfl⟩

/-- What is known of a request of the worker `w`: a section that has read an item comes to what the request is to come to only as
long as the item is the same. -/
structure Stage (itemBufSize : ℕ) (bdbLock : Option ℕ) (db : Store) (w : ℕ) (r : Request) (t : Task) : Prop where
  place : Outside r t ∨ bdbLock = some w ∧ Inside r t
  result : t.over = none → (∀ db', t.run r.outcome db' = serve itemBufSize r db') ∨
    bdbLock = some w ∧ Writes r.key t ∧ (r.updates = true ∨ db r.key = none) ∧
      ∀ db', db' r.key = db r.key → t.run r.outcome db' = serve itemBufSize r db'

variable {bdbLock bdbLock' : Option ℕ}

theorem Stage.now (hs : Stage itemBufSize bdbLock db w r t) (hover : t.over = none) : t.run r.outcome db = serve itemBufSize r db := by
  rcases hs.result hover with hfresh | ⟨-, -, -, hkept⟩
  · exact hfresh db
  · exact hkept db rfl

theorem Stage.fresh (hs : Stage itemBufSize bdbLock db w r t) (hover : t.over = none) (hwrites : ¬ Writes r.key t) (db' : Store) :
    t.run r.outcome db' = serve itemBufSize r db' := by
  rcases hs.result hover with hfresh | ⟨-, h, -, -⟩
  · exact hfresh db'
  · exact absurd h hwrites

theorem Stage.frame (hs : Stage itemBufSize bdbLock db w r t) (hlock : bdbLock = some w → bdbLock' = some w)
    (hdb : bdbLock = some w → Writes r.key t → (r.updates = true ∨ db r.key = none) → db' r.key = db r.key) :
    Stage itemBufSize bdbLock' db' w r t := by
  refine ⟨?_, fun hover => ?_⟩
  · rcases hs.place with hout | ⟨hheld, hin⟩
    · exact Or.inl hout
    · exact Or.inr ⟨hlock hheld, hin⟩
  · rcases hs.result hover with hfresh | ⟨hheld, hwrites, hread, hkept⟩
    · exact Or.inl hfresh
    · have hsame := hdb hheld hwrites hread
      refine Or.inr ⟨hlock hheld, hwrites, ?_, fun db'' h => hkept db'' (h.trans hsame)⟩
      rw [hsame]
      exact hread

theorem stage_answer (reply : Reply) : Stage itemBufSize bdbLock db w r (.outString reply) :=
  ⟨Or.inl Outside.answer, fun h => absurd h (some_ne_none reply)⟩

theorem stage_leaves (hlock : bdbLock = some w) (h : Leaves t) : Stage itemBufSize bdbLock db w r t := by
  obtain ⟨reply, rfl⟩ := h
  exact ⟨Or.inr ⟨hlock, Inside.leaves ⟨reply, rfl⟩⟩, fun h => absurd h (some_ne_none reply)⟩

theorem Leaves.over (h : Leaves t) : ∃ reply, t.over = some reply := by
  obtain ⟨reply, rfl⟩ := h
  exact ⟨reply, rfl⟩

variable {key : Key}

theorem Writes.over (h : Writes key t) : t.over = none := by
  obtain ⟨it, next, rfl, -⟩ := h
  rfl

theorem Reads.over (h : Reads r t) : t.over = none ∧ ¬ Writes r.key t := by
  cases h with
  | get => exact ⟨rfl, fun ⟨_, _, h, _⟩ => Task.noConfusion h⟩
  | exist => exact ⟨rfl, fun ⟨_, _, h, _⟩ => Task.noConfusion h⟩

def Inv (itemBufSize : ℕ) (s : Workers) : Prop := ∀ w r t, s.conn w = some (r, t) → Stage itemBufSize s.bdbLock s.db w r t

theorem inv_start (db : Store) : Inv itemBufSize (Workers.start db) := fun _ _ _ h => absurd h.symm (some_ne_none _)

theorem Inv.set {x : Option (Request × Task)} (hown : ∀ r t, x = some (r, t) → Stage itemBufSize s.bdbLock s.db w r t)
    (hothers : ∀ w', w' ≠ w → ∀ r t, s.conn w' = some (r, t) → Stage itemBufSize s.bdbLock s.db w' r t) : Inv itemBufSize (s.set w x) := by
  intro w' r t hconn
  have hconn : Function.update s.conn w x w' = some (r, t) := hconn
  by_cases hw : w' = w
  · subst hw
    rw [update_self] at hconn
    exact hown r t hconn
  · rw [update_of_ne hw] at hconn
    exact hothers w' hw r t hconn

def phase : Option (Request × Task) → Phase Request Reply
  | none => .idle
  | some (r, t) =>
    match t.over with
    | some reply => .done r reply
    | none => .pending r

def abs (s : Workers) : State ℕ Request Reply Store := ⟨s.db, fun w => phase (s.conn w)⟩

theorem abs_set (x : Option (Request × Task)) : abs (s.set w x) = ⟨s.db, Function.update (abs s).phase w (phase x)⟩ := by
  have hphase : (fun w' => phase (Function.update s.conn w x w')) = Function.update (fun w' => phase (s.conn w')) w (phase x) := by
    funext w'
    by_cases hw : w' = w
    · subst hw
      rw [update_self, update_self]
    · rw [update_of_ne hw, update_of_ne hw]
  exact congrArg (State.mk s.db) hphase

theorem phase_pending (hover : t.over = none) : phase (some (r, t)) = .pending r := by
  rw [phase, hover]

theorem phase_done (hover : t.over = some reply) : phase (some (r, t)) = .done r reply := by
  rw [phase, hover]

variable {t' : Task} {x : Option ℕ}

theorem abs_same (hconn : s.conn w = some (r, t)) (hphase : phase (some (r, t')) = phase (some (r, t))) :
    abs ({ s with bdbLock := x }.set w (some (r, t'))) = abs s := by
  rw [abs_set, hphase, ← hconn]
  exact congrArg (State.mk s.db) (update_eq_self w (abs s).phase)

theorem step_effect (hconn : s.conn w = some (r, t))
    (hstage : Stage itemBufSize s.bdbLock s.db w r t) (hover : t.over = none) (hover' : t'.over = some reply)
    (hrun : t.run r.outcome s.db = t'.run r.outcome db') :
    Step (serve itemBufSize) (abs s) none (abs (Workers.set ⟨db', x, s.conn⟩ w (some (r, t')))) := by
  have hserve : serve itemBufSize r s.db = (reply, db') := by
    rw [← hstage.now hover, hrun, run_over hover']
  have hpending : (abs s).phase w = .pending r := by
    rw [← phase_pending hover, ← hconn]
    rfl
  have hstep : Step (serve itemBufSize) (abs s) none _ := Step.effect hpending
  have hdb : (serve itemBufSize r (abs s).store) = (reply, db') := hserve
  rw [hdb] at hstep
  rw [abs_set, phase_done hover']
  exact hstep

/-- The worker with the lock is about to write the key because it has read the item. -/
def writesBack (s : Workers) (key : Key) : Bool :=
  match s.bdbLock.bind s.conn with
  | some (r, .itemPut key' _ _) => key' == key && r.updates
  | _ => false

/-- No `delete` removes an item that a section is about to write because it has read it. -/
def spares (s : Workers) : Action → Bool
  | .read .. => true
  | .goOn w =>
    match s.conn w with
    | some (r, .itemDelete key _) => r.outcome.delFails || (s.db key).isNone || !writesBack s key
    | _ => true

variable {next : DelResult → Task} {it : Item}

theorem spares_delete {next' : Bool → Task} {r' : Request}
    (hspares : spares s (.goOn w) = true) (hconn : s.conn w = some (r, .itemDelete key next)) (hfails : ¬ r.outcome.delFails = true)
    (hthere : ¬ (s.db key).isNone = true) (hheld : s.bdbLock = some w') (hconn' : s.conn w' = some (r', .itemPut key it next')) :
    ¬ r'.updates = true := by
  rw [spares, hconn] at hspares
  have hback : writesBack s key = r'.updates := by
    rw [writesBack, hheld, bind_some, hconn']
    exact (congrArg (· && r'.updates) (beq_self_eq_true key)).trans (Bool.true_and _)
  have hnot : (r.outcome.delFails || (s.db key).isNone || !writesBack s key) = true := hspares
  rw [Bool.eq_false_iff.2 hfails, Bool.eq_false_iff.2 hthere, hback] at hnot
  intro h
  rw [h] at hnot
  exact Bool.false_ne_true hnot

/-- What a step of the worker has to keep, and what it is to the object. -/
def Good (itemBufSize : ℕ) (s : Workers) (e : Option (Event ℕ Request Reply)) (s' : Workers) : Prop :=
  Inv itemBufSize s' ∧ (Step (serve itemBufSize) (abs s) e (abs s') ∨ e = none ∧ abs s' = abs s)

variable {ulen : ℕ}

theorem Stage.get {key : Key} {ulen : ℕ} {next : Option Item → Task} (hstage : Stage itemBufSize bdbLock db w r (.itemGet key ulen next)) :
    key = r.key ∧ ((∀ found, ∃ reply, next found = .outString reply) ∨
      bdbLock = some w ∧ ∀ found, Leaves (next found) ∨ Writes r.key (next found) ∧ r.updates = true) := by
  rcases hstage.place with hout | ⟨hheld, hin⟩
  · cases hout with
    | get hnext => exact ⟨rfl, Or.inl hnext⟩
  · cases hin with
    | reads hreads =>
      cases hreads with
      | get hnext => exact ⟨rfl, Or.inr ⟨hheld, hnext⟩⟩
    | writes hwrites =>
      obtain ⟨_, _, h, -⟩ := hwrites
      cases h
    | leaves hleaves =>
      obtain ⟨_, h⟩ := hleaves
      cases h

/-- **`item_get`.** -/
theorem get_good {next : Option Item → Task} (hinv : Inv itemBufSize s)
    (hconn : s.conn w = some (r, .itemGet key ulen next)) : Good itemBufSize s none (s.set w (some (r, next (dbGet r.outcome s.db key)))) := by
  have hstage := hinv w r _ hconn
  obtain ⟨rfl, hnext⟩ := hstage.get
  have hfresh := hstage.fresh rfl fun ⟨_, _, h, _⟩ => Task.noConfusion h
  have hothers : ∀ w', w' ≠ w → ∀ r' t', s.conn w' = some (r', t') → Stage itemBufSize s.bdbLock s.db w' r' t' :=
    fun w' _ r' t' h => hinv w' r' t' h
  have hanswers : ∀ {reply}, (next (dbGet r.outcome s.db r.key)).over = some reply →
      Stage itemBufSize s.bdbLock s.db w r (next (dbGet r.outcome s.db r.key)) →
      Good itemBufSize s none (s.set w (some (r, next (dbGet r.outcome s.db r.key)))) := by
    intro reply hover hstage'
    refine ⟨Inv.set (fun r' t' h => ?_) hothers, Or.inl (step_effect hconn hstage rfl hover rfl)⟩
    obtain ⟨rfl, rfl⟩ := Prod.mk.inj (Option.some.inj h)
    exact hstage'
  rcases hnext with hout | ⟨hheld, hin⟩
  · obtain ⟨reply, hreply⟩ := hout (dbGet r.outcome s.db r.key)
    rw [hreply] at hanswers ⊢
    exact hanswers rfl (stage_answer reply)
  rcases hin (dbGet r.outcome s.db r.key) with hleaves | ⟨hwrites, hupdates⟩
  · obtain ⟨reply, hover⟩ := hleaves.over
    exact hanswers hover (stage_leaves hheld hleaves)
  -- what was read is there until it is written
  · refine ⟨Inv.set (fun r' t' h => ?_) hothers, Or.inr ⟨rfl, ?_⟩⟩
    · obtain ⟨rfl, rfl⟩ := Prod.mk.inj (Option.some.inj h)
      refine ⟨Or.inr ⟨hheld, Inside.writes hwrites⟩, fun _ => Or.inr ⟨hheld, hwrites, Or.inl hupdates, fun db' hsame => ?_⟩⟩
      rw [← hfresh db', Task.run, dbGet, dbGet, hsame]
    · exact abs_same hconn ((phase_pending hwrites.over).trans (phase_pending rfl).symm)

theorem small_good {ulen' : ℕ} {next : Option Item → Task} (hinv : Inv itemBufSize s)
    (hconn : s.conn w = some (r, .itemGet key ulen next)) : Good itemBufSize s none (s.set w (some (r, .itemGet key ulen' next))) := by
  have hstage := hinv w r _ hconn
  have hfresh := hstage.fresh rfl fun ⟨_, _, h, _⟩ => Task.noConfusion h
  obtain ⟨rfl, hnext⟩ := hstage.get
  refine ⟨Inv.set (fun r' t' h => ?_) fun w' _ r' t' h => hinv w' r' t' h, Or.inr ⟨rfl, ?_⟩⟩
  · obtain ⟨rfl, rfl⟩ := Prod.mk.inj (Option.some.inj h)
    refine ⟨?_, fun _ => Or.inl fun db' => hfresh db'⟩
    rcases hnext with hout | ⟨hheld, hin⟩
    · exact Or.inl (Outside.get hout)
    · exact Or.inr ⟨hheld, Inside.reads (Reads.get hin)⟩
  · exact abs_same hconn ((phase_pending rfl).trans (phase_pending rfl).symm)

/-- **`item_exists`.** -/
theorem exists_good {next : Bool → Task} (hinv : Inv itemBufSize s)
    (hconn : s.conn w = some (r, .itemExists key next)) : Good itemBufSize s none (s.set w (some (r, next (dbExists r.outcome s.db key)))) := by
  have hstage := hinv w r _ hconn
  have hfresh := hstage.fresh rfl fun ⟨_, _, h, _⟩ => Task.noConfusion h
  have hothers : ∀ w', w' ≠ w → ∀ r' t', s.conn w' = some (r', t') → Stage itemBufSize s.bdbLock s.db w' r' t' :=
    fun w' _ r' t' h => hinv w' r' t' h
  have hplace : key = r.key ∧ s.bdbLock = some w ∧ ∀ found, Leaves (next found) ∨ Writes r.key (next found) ∧ (r.updates = true ∨ found = false) := by
    rcases hstage.place with hout | ⟨hheld, hin⟩
    · cases hout
    · cases hin with
      | reads hreads =>
        cases hreads with
        | exist hnext => exact ⟨rfl, hheld, hnext⟩
      | writes hwrites =>
        obtain ⟨_, _, h, -⟩ := hwrites
        cases h
      | leaves hleaves =>
        obtain ⟨_, h⟩ := hleaves
        cases h
  obtain ⟨rfl, hheld, hnext⟩ := hplace
  rcases hnext (dbExists r.outcome s.db r.key) with hleaves | ⟨hwrites, hread⟩
  · obtain ⟨reply, hover⟩ := hleaves.over
    refine ⟨Inv.set (fun r' t' h => ?_) hothers, Or.inl (step_effect hconn hstage rfl hover rfl)⟩
    obtain ⟨rfl, rfl⟩ := Prod.mk.inj (Option.some.inj h)
    exact stage_leaves hheld hleaves
  · refine ⟨Inv.set (fun r' t' h => ?_) hothers, Or.inr ⟨rfl, ?_⟩⟩
    · obtain ⟨rfl, rfl⟩ := Prod.mk.inj (Option.some.inj h)
      refine ⟨Or.inr ⟨hheld, Inside.writes hwrites⟩, fun _ => ?_⟩
      by_cases hfails : r.outcome.existsFails = true
      -- an error counts as an absent key, whatever is there
      · refine Or.inl fun db' => ?_
        rw [← hfresh db', Task.run, dbExists, dbExists, hfails]
        rfl
      · have hkept : ∀ db', db' r.key = s.db r.key → (next (dbExists r.outcome s.db r.key)).run r.outcome db' = serve itemBufSize r db' := by
          intro db' hsame
          rw [← hfresh db', Task.run, dbExists, dbExists, hsame]
        refine Or.inr ⟨hheld, hwrites, ?_, hkept⟩
        rcases hread with hupdates | habsent
        · exact Or.inl hupdates
        · rw [dbExists, Bool.eq_false_iff.2 hfails] at habsent
          have hnone : ¬ (s.db r.key).isSome = true := Bool.eq_false_iff.1 habsent
          exact Or.inr (not_isSome_iff_eq_none.1 hnone)
    · exact abs_same hconn ((phase_pending hwrites.over).trans (phase_pending rfl).symm)

/-- **`item_put`**: the worker holds the lock, so no other one is in a section. -/
theorem put_good {next : Bool → Task} (hinv : Inv itemBufSize s) (hconn : s.conn w = some (r, .itemPut key it next)) :
    Good itemBufSize s none (Workers.set { s with db := (dbPut r.outcome s.db key it).2 } w (some (r, next (dbPut r.outcome s.db key it).1))) := by
  have hstage := hinv w r _ hconn
  have hplace : s.bdbLock = some w ∧ ∀ success, Leaves (next success) := by
    rcases hstage.place with hout | ⟨hheld, hin⟩
    · cases hout
    · cases hin with
      | reads hreads => cases hreads
      | writes hwrites =>
        obtain ⟨_, _, h, hnext⟩ := hwrites
        cases h
        exact ⟨hheld, hnext⟩
      | leaves hleaves =>
        obtain ⟨_, h⟩ := hleaves
        cases h
  obtain ⟨hheld, hnext⟩ := hplace
  obtain ⟨reply, hover⟩ := (hnext (dbPut r.outcome s.db key it).1).over
  refine ⟨Inv.set (fun r' t' h => ?_) (fun w' hw r' t' h => ?_), Or.inl (step_effect hconn hstage rfl hover rfl)⟩
  · obtain ⟨rfl, rfl⟩ := Prod.mk.inj (Option.some.inj h)
    exact stage_leaves hheld (hnext _)
  · exact (hinv w' r' t' h).frame id fun hheld' => absurd (Option.some.inj (hheld'.symm.trans hheld)) hw

/-- **`item_delete`**: it may meet a section that writes the same key. -/
theorem delete_good (hinv : Inv itemBufSize s) (hconn : s.conn w = some (r, .itemDelete key next)) (hspares : spares s (.goOn w) = true) :
    Good itemBufSize s none (Workers.set { s with db := (dbDel r.outcome s.db key).2 } w (some (r, next (dbDel r.outcome s.db key).1))) := by
  have hstage := hinv w r _ hconn
  have hplace : ∀ ret, ∃ reply, next ret = .outString reply := by
    rcases hstage.place with hout | ⟨hheld, hin⟩
    · cases hout with
      | delete hnext => exact hnext
    · cases hin with
      | reads hreads => cases hreads
      | writes hwrites =>
        obtain ⟨_, _, h, -⟩ := hwrites
        cases h
      | leaves hleaves =>
        obtain ⟨_, h⟩ := hleaves
        cases h
  obtain ⟨reply, hreply⟩ := hplace (dbDel r.outcome s.db key).1
  have hover : (next (dbDel r.outcome s.db key).1).over = some reply := by
    rw [hreply]
    rfl
  refine ⟨Inv.set (fun r' t' h => ?_) (fun w' hw r' t' h => ?_), Or.inl (step_effect hconn hstage rfl hover rfl)⟩
  · obtain ⟨rfl, rfl⟩ := Prod.mk.inj (Option.some.inj h)
    rw [hreply]
    exact stage_answer reply
  · refine (hinv w' r' t' h).frame id fun hheld hwrites hread => ?_
    obtain ⟨it, next', rfl, -⟩ := hwrites
    rw [dbDel]
    by_cases hfails : r.outcome.delFails = true
    · rw [if_pos hfails]
    rw [if_neg hfails]
    by_cases hnone : (s.db key).isNone = true
    · rw [if_pos hnone]
    rw [if_neg hnone]
    by_cases hkey : r'.key = key
    · subst hkey
      have hthere : s.db r'.key ≠ none := fun h => hnone (isNone_iff_eq_none.2 h)
      exact absurd (hread.resolve_right hthere) (spares_delete hspares hconn hfails hnone hheld h)
    · exact update_of_ne hkey none s.db

variable {next : Task}

/-- **`pthread_mutex_lock`.** -/
theorem lock_good (hinv : Inv itemBufSize s) (hconn : s.conn w = some (r, .lock next)) (hfree : s.bdbLock = none) :
    Good itemBufSize s none (Workers.set { s with bdbLock := some w } w (some (r, next))) := by
  have hstage := hinv w r _ hconn
  have hfresh := hstage.fresh rfl fun ⟨_, _, h, _⟩ => Task.noConfusion h
  have hnext : Reads r next ∨ Writes r.key next := by
    rcases hstage.place with hout | ⟨hheld, -⟩
    · cases hout with
      | lock hnext => exact hnext
    · exact absurd (hfree.symm.trans hheld).symm (some_ne_none w)
  have hover : next.over = none := by
    rcases hnext with hreads | hwrites
    · exact hreads.over.1
    · exact hwrites.over
  refine ⟨Inv.set (fun r' t' h => ?_) (fun w' hw r' t' h => ?_), Or.inr ⟨rfl, ?_⟩⟩
  · obtain ⟨rfl, rfl⟩ := Prod.mk.inj (Option.some.inj h)
    exact ⟨Or.inr ⟨rfl, hnext.elim Inside.reads Inside.writes⟩, fun _ => Or.inl hfresh⟩
  · exact (hinv w' r' t' h).frame (fun hheld => absurd (hfree.symm.trans hheld).symm (some_ne_none w')) fun _ _ _ => rfl
  · exact abs_same hconn ((phase_pending hover).trans (phase_pending rfl).symm)

/-- **`pthread_mutex_unlock`.** -/
theorem unlock_good (hinv : Inv itemBufSize s) (hconn : s.conn w = some (r, .unlock next)) :
    Good itemBufSize s none (Workers.set { s with bdbLock := none } w (some (r, next))) := by
  have hstage := hinv w r _ hconn
  have hplace : s.bdbLock = some w ∧ ∃ reply, next = .outString reply := by
    rcases hstage.place with hout | ⟨hheld, hin⟩
    · cases hout
    · cases hin with
      | reads hreads => cases hreads
      | writes hwrites =>
        obtain ⟨_, _, h, -⟩ := hwrites
        cases h
      | leaves hleaves =>
        obtain ⟨reply, h⟩ := hleaves
        cases h
        exact ⟨hheld, reply, rfl⟩
  obtain ⟨hheld, reply, rfl⟩ := hplace
  refine ⟨Inv.set (fun r' t' h => ?_) (fun w' hw r' t' h => ?_), Or.inr ⟨rfl, abs_same hconn rfl⟩⟩
  · obtain ⟨rfl, rfl⟩ := Prod.mk.inj (Option.some.inj h)
    exact stage_answer reply
  · exact (hinv w' r' t' h).frame (fun hheld' => absurd (Option.some.inj (hheld'.symm.trans hheld)) hw) fun _ _ _ => rfl

theorem answer_good (hinv : Inv itemBufSize s) (hconn : s.conn w = some (r, .outString reply)) :
    Good itemBufSize s (some (.answer w r reply)) (s.set w none) := by
  have hdone : (abs s).phase w = .done r reply := by
    show phase (s.conn w) = _
    rw [hconn]
    rfl
  refine ⟨Inv.set (fun r' t' h => absurd h.symm (some_ne_none _)) fun w' _ r' t' h => hinv w' r' t' h, Or.inl ?_⟩
  rw [abs_set]
  exact Step.answer hdone

theorem goOn_refines (itemBufSize : ℕ) : Refines (serve itemBufSize) abs (Inv itemBufSize) (fun s a => spares s a = true) (step itemBufSize) := by
  intro s a s' e hinv hspares hstep
  cases a with
  | read w r =>
    rw [step] at hstep
    by_cases hidle : (s.conn w).isNone = true
    · rw [if_pos hidle] at hstep
      obtain ⟨rfl, rfl⟩ := Prod.mk.inj (Option.some.inj hstep)
      have hover : (r.task itemBufSize).over = none := by
        obtain ⟨key, cmd, o⟩ := r
        cases cmd <;> rfl
      have hphase : (abs s).phase w = .idle := by
        show phase (s.conn w) = _
        rw [isNone_iff_eq_none.1 hidle]
        rfl
      refine ⟨Inv.set (fun r' t' h => ?_) fun w' _ r' t' h => hinv w' r' t' h, Or.inl ?_⟩
      · obtain ⟨rfl, rfl⟩ := Prod.mk.inj (Option.some.inj h)
        exact ⟨Or.inl (task_outside itemBufSize r), fun _ => Or.inl fun _ => rfl⟩
      · rw [abs_set, phase_pending hover]
        exact Step.call hphase
    · rw [if_neg hidle] at hstep
      exact absurd hstep.symm (some_ne_none _)
  | goOn w =>
    obtain ⟨⟨r, t⟩, hconn, hstep⟩ := bind_eq_some_iff.1 hstep
    cases t with
    | itemGet key ulen next =>
      have hgood := get_good hinv hconn
      rw [goOn] at hstep
      cases hfound : dbGet r.outcome s.db key with
      | none =>
        rw [hfound] at hstep hgood
        obtain ⟨rfl, rfl⟩ := Prod.mk.inj (Option.some.inj hstep)
        exact hgood
      | some it =>
        rw [hfound] at hstep hgood
        dsimp only at hstep
        by_cases hsmall : ulen < itemNtotal key it
        · rw [if_pos hsmall] at hstep
          obtain ⟨rfl, rfl⟩ := Prod.mk.inj (Option.some.inj hstep)
          exact small_good hinv hconn
        · rw [if_neg hsmall] at hstep
          obtain ⟨rfl, rfl⟩ := Prod.mk.inj (Option.some.inj hstep)
          exact hgood
    | itemExists key next =>
      obtain ⟨rfl, rfl⟩ := Prod.mk.inj (Option.some.inj hstep)
      exact exists_good hinv hconn
    | itemPut key it next =>
      obtain ⟨rfl, rfl⟩ := Prod.mk.inj (Option.some.inj hstep)
      exact put_good hinv hconn
    | itemDelete key next =>
      obtain ⟨rfl, rfl⟩ := Prod.mk.inj (Option.some.inj hstep)
      exact delete_good hinv hconn hspares
    | lock next =>
      have hstep : (if s.bdbLock = none then some (Workers.set { s with bdbLock := some w } w (some (r, next)), none) else none) = some (s', e) := hstep
      by_cases hfree : s.bdbLock = none
      · rw [if_pos hfree] at hstep
        obtain ⟨rfl, rfl⟩ := Prod.mk.inj (Option.some.inj hstep)
        exact lock_good hinv hconn hfree
      · rw [if_neg hfree] at hstep
        exact absurd hstep.symm (some_ne_none _)
    | unlock next =>
      obtain ⟨rfl, rfl⟩ := Prod.mk.inj (Option.some.inj hstep)
      exact unlock_good hinv hconn
    | outString reply =>
      obtain ⟨rfl, rfl⟩ := Prod.mk.inj (Option.some.inj hstep)
      exact answer_good hinv hconn

theorem run_writes (h : Writes key t) (o : Outcome) (db : Store) :
    (t.run o db).2 = db ∨ ∃ it, (t.run o db).2 = Function.update db key (some it) := by
  obtain ⟨it, next, rfl, hnext⟩ := h
  obtain ⟨reply, hover⟩ := (hnext (dbPut o db key it).1).over
  rw [Task.run, run_over hover, dbPut]
  by_cases hfails : o.putFails = true
  · rw [if_pos hfails]
    exact Or.inl rfl
  · rw [if_neg hfails]
    exact Or.inr ⟨it, rfl⟩

theorem run_reads (h : Reads r t) (o : Outcome) (db : Store) :
    (t.run o db).2 = db ∨ ∃ it, (t.run o db).2 = Function.update db r.key (some it) := by
  cases h with
  | @get ulen next hnext =>
    rw [Task.run]
    rcases hnext (dbGet o db r.key) with hleaves | ⟨hwrites, -⟩
    · obtain ⟨reply, hover⟩ := hleaves.over
      rw [run_over hover]
      exact Or.inl rfl
    · exact run_writes hwrites o db
  | @exist next hnext =>
    rw [Task.run]
    rcases hnext (dbExists o db r.key) with hleaves | ⟨hwrites, -⟩
    · obtain ⟨reply, hover⟩ := hleaves.over
      rw [run_over hover]
      exact Or.inl rfl
    · exact run_writes hwrites o db

theorem serve_keeps (itemBufSize : ℕ) (r : Request) (db : Store) (hcmd : r.cmd ≠ .delete) :
    (serve itemBufSize r db).2 = db ∨ ∃ it, (serve itemBufSize r db).2 = Function.update db r.key (some it) := by
  have hout := task_outside itemBufSize r
  obtain ⟨key, cmd, o⟩ := r
  cases cmd with
  | delete => exact absurd rfl hcmd
  | get => exact Or.inl rfl
  | update comm it =>
    cases hout with
    | lock hnext => exact hnext.elim (fun h => run_reads h o db) fun h => run_writes h o db
  | arithmetic incr delta =>
    cases hout with
    | lock hnext => exact hnext.elim (fun h => run_reads h o db) fun h => run_writes h o db

theorem serve_other (db : Store) (hkey : r.key ≠ key) : (serve itemBufSize r db).2 key = db key := by
  by_cases hcmd : r.cmd = .delete
  · obtain ⟨key', cmd, o⟩ := r
    obtain rfl : cmd = .delete := hcmd
    have hdel : (serve itemBufSize ⟨key', .delete, o⟩ db).2 = (dbDel o db key').2 := by
      rw [serve, Request.task, processDeleteCommand, Task.run]
      cases (dbDel o db key').1 <;> rfl
    rw [hdel, dbDel]
    by_cases hfails : o.delFails = true
    · rw [if_pos hfails]
    rw [if_neg hfails]
    by_cases hnone : (db key').isNone = true
    · rw [if_pos hnone]
    · rw [if_neg hnone]
      exact update_of_ne (Ne.symm hkey) none db
  · rcases serve_keeps itemBufSize r db hcmd with h | ⟨it, h⟩
    · rw [h]
    · rw [h, update_of_ne (Ne.symm hkey)]

/-- An `add` of the key that is answered "STORED", and whose look at the database succeeded. -/
def storedAdd (key : Key) (p : ℕ × Request × Reply) : Bool :=
  match p.2.1.cmd with
  | .update .add _ => p.2.1.key == key && !p.2.1.outcome.existsFails && p.2.2 == .stored
  | _ => false

theorem serve_add {p : ℕ × Request × Reply} (hadd : storedAdd key p = true) (hreply : (serve itemBufSize p.2.1 db).1 = p.2.2) :
    db key = none ∧ (serve itemBufSize p.2.1 db).2 key ≠ none := by
  obtain ⟨w, ⟨key', cmd, o⟩, reply⟩ := p
  cases cmd with
  | update comm it =>
    cases comm with
    | add =>
      have hadd : (key' == key && !o.existsFails && reply == .stored) = true := hadd
      rw [Bool.and_eq_true, Bool.and_eq_true, beq_iff_eq, beq_iff_eq, Bool.not_eq_true'] at hadd
      obtain ⟨⟨rfl, hexists⟩, rfl⟩ := hadd
      have hserve : serve itemBufSize ⟨key', .update .add it, o⟩ db = (if dbExists o db key' = true then Task.unlock (.outString .notStored)
            else .itemPut key' it fun ret => .unlock (.outString (if ret = true then .stored else .notStored))).run o db := rfl
      have hfound : dbExists o db key' = (db key').isSome := by
        rw [dbExists, hexists]
        exact Bool.true_and _
      rw [hserve, hfound] at hreply ⊢
      by_cases hthere : (db key').isSome = true
      · rw [if_pos hthere] at hreply
        cases hreply
      · rw [if_neg hthere, Task.run, dbPut] at hreply ⊢
        by_cases hfails : o.putFails = true
        · rw [if_pos hfails] at hreply
          cases hreply
        · rw [if_neg hfails]
          refine ⟨not_isSome_iff_eq_none.1 hthere, ?_⟩
          show Function.update db key' (some it) key' ≠ none
          rw [update_self]
          exact some_ne_none it
    | _ => exact absurd hadd Bool.false_ne_true
  | _ => exact absurd hadd Bool.false_ne_true

theorem serial_adds : ∀ {order : List (ℕ × Request × Reply)} {db db' : Store}, Serial (serve itemBufSize) db order db' →
    (∀ p ∈ order, p.2.1.key = key → p.2.1.cmd ≠ .delete) →
    order.countP (storedAdd key) ≤ 1 ∧ (db key ≠ none → order.countP (storedAdd key) = 0) := by
  intro order
  induction order with
  | nil =>
    intro db db' _ _
    exact ⟨Nat.zero_le 1, fun _ => rfl⟩
  | cons p order ih =>
    rintro db db' ⟨hreply, hrest⟩ hkeeps
    obtain ⟨hone, hnone⟩ := ih hrest fun q hq => hkeeps q (mem_cons_of_mem _ hq)
    by_cases hadd : storedAdd key p = true
    · obtain ⟨habsent, hthere⟩ := serve_add hadd hreply
      rw [countP_cons_of_pos hadd, hnone hthere]
      exact ⟨le_refl 1, fun h => absurd habsent h⟩
    · rw [countP_cons_of_neg hadd]
      refine ⟨hone, fun hthere => hnone ?_⟩
      by_cases hkey : p.2.1.key = key
      · rcases serve_keeps itemBufSize p.2.1 db (hkeeps p mem_cons_self hkey) with h | ⟨it, h⟩
        · rw [h]
          exact hthere
        · rw [h, hkey, update_self]
          exact some_ne_none it
      · rw [serve_other db hkey]
        exact hthere

/-- **Requests take effect one at a time**, whatever the workers do when, in a run in which no `delete` removes an item that a
section has read and is about to write; and of the `add`s of a key that nobody deletes one at most is answered "STORED". -/
theorem workers_run {db : Store} {actions : List Action} {s : Workers} {h : List (Event ℕ Request Reply)}
    (hspares : Along (fun s a => spares s a = true) (step itemBufSize) (Workers.start db) actions)
    (hrun : run (step itemBufSize) (Workers.start db) actions = some (s, h)) : Linearizable (serve itemBufSize) db h s.db ∧
      ∀ key, (∀ c r, Event.call c r ∈ h → r.key = key → r.cmd ≠ .delete) → (h.filterMap Event.answered).countP (storedAdd key) ≤ 1 := by
  have hlinear := linearizable_of_refines (goOn_refines itemBufSize) (inv_start db) rfl hspares hrun
  refine ⟨hlinear, fun key hkeeps => ?_⟩
  obtain ⟨order, hserial, hwithin, -⟩ := hlinear
  refine le_trans (hwithin.subperm.countP_le (storedAdd key)) (serial_adds hserial ?_).1
  rintro ⟨c, r, reply⟩ hmem
  exact hkeeps c r (hwithin.call_mem hmem)

def fine : Outcome := ⟨false, false, false, false, false, []⟩

/-- `incr k 1`. -/
def incrRequest : Request := ⟨[107], .arithmetic true 1, fine⟩

/-- `delete k`. -/
def deleteRequest : Request := ⟨[107], .delete, fine⟩

def fiveStore : Store := Function.update (fun _ => none) [107] (some ⟨0, [53]⟩)

def undoneActions : List Action := [.read 0 incrRequest, .read 1 deleteRequest, .goOn 0, .goOn 0, .goOn 1, .goOn 1, .goOn 0, .goOn 0, .goOn 0]

theorem workers_run_undone : ¬ ∀ (itemBufSize : ℕ) (db : Store) (actions : List Action) (s : Workers) (h : List (Event ℕ Request Reply)),
    run (step itemBufSize) (Workers.start db) actions = some (s, h) → Linearizable (serve itemBufSize) db h s.db := by
  intro hall
  have hseen : (run (step 512) (Workers.start fiveStore) undoneActions).map (fun p => (p.2, p.1.db [107])) =
      some ([.call 0 incrRequest, .call 1 deleteRequest, .answer 1 deleteRequest .deleted, .answer 0 incrRequest (.number [54])],
        some ⟨0, [54]⟩) := by decide
  obtain ⟨⟨s, h⟩, hrun, hpair⟩ := map_eq_some_iff.1 hseen
  obtain ⟨rfl, hthere⟩ := Prod.mk.inj hpair
  obtain ⟨order, hserial, hwithin, -⟩ := hall 512 fiveStore undoneActions s _ hrun
  have hperm := hwithin.perm fun c => by
    by_cases h0 : c = 0
    · subst h0
      decide
    · by_cases h1 : c = 1
      · subst h1
        decide
      · have hnone : own c [(0, incrRequest), (1, deleteRequest)] = [] := by
          simp [own, Ne.symm h0, Ne.symm h1]
        show (own c [(0, incrRequest), (1, deleteRequest)]).length ≤ _
        rw [hnone]
        exact Nat.zero_le _
  rcases pair_perm.1 hperm with rfl | rfl
  · have hfound : (serve 512 incrRequest (serve 512 deleteRequest fiveStore).2).1 = .notFound := by decide
    exact absurd (hfound.symm.trans hserial.2.1) (by decide)
  · have hgone : (serve 512 deleteRequest (serve 512 incrRequest fiveStore).2).2 [107] = none := by decide
    obtain ⟨-, -, hdb⟩ := hserial
    rw [hdb] at hthere
    exact absurd (hthere.symm.trans hgone) (some_ne_none _)

/-- The same requests, with the `delete` once the lock is free. -/
def keptActions : List Action := [.read 0 incrRequest, .read 1 deleteRequest, .goOn 0, .goOn 0, .goOn 0, .goOn 0, .goOn 1, .goOn 0, .goOn 1]

theorem workers_run_kept : ∃ s h, run (step 512) (Workers.start fiveStore) keptActions = some (s, h) ∧
    (Linearizable (serve 512) fiveStore h s.db ∧ ∀ key, (∀ c r, Event.call c r ∈ h → r.key = key → r.cmd ≠ .delete) →
      (h.filterMap Event.answered).countP (storedAdd key) ≤ 1) := by
  have hruns : (run (step 512) (Workers.start fiveStore) keptActions).isSome = true := by decide
  obtain ⟨⟨s, h⟩, hrun⟩ := isSome_iff_exists.1 hruns
  exact ⟨s, h, hrun, workers_run (by decide) hrun⟩

end KVStores.MemcacheDb
