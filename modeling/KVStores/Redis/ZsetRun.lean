import KVStores.Redis.ZsetUpdates

/-!
# Runs of sorted set commands

* `zset_run`: **the dict and the skip list of a set agree** in every run in which no two members of a skip list with the same score clash.
-/

namespace KVStores.Redis

open List Option

variable {S : Type} [LinearOrder S] {fmt : ScoreFormat S} {cfg : ZsetConfig} {add : S → S → Option S}

/-- A command that changes a set, and the rounds of `zslRandomLevel` for the nodes that it makes. -/
abbrev ZUpdateCall (S : Type) := ZUpdate S × (ℕ → ℕ)

def SkiplistOk (db : Option (Zobj S)) : Prop := ∀ zs, db = some (.skiplist zs) → ∃ ids es, zs.Ok ids es

/-- In every state the dict and the skip list agree, and no command fails an assertion. -/
@[grind =] def ZsetRunOk (cfg : ZsetConfig) (fmt : ScoreFormat S) (add : S → S → Option S) : Option (Zobj S) → List (ZUpdateCall S) → Prop
  | db, [] => SkiplistOk db
  | db, c :: cs => SkiplistOk db ∧ ∃ reply db', zsetUpdate cfg fmt add c.2 db c.1 = some (reply, db') ∧ ZsetRunOk cfg fmt add db' cs

def DbHolds (fmt : ScoreFormat S) (db : Option (Zobj S)) (l : SortedSet S) : Prop := (db = none → l.elems = []) ∧ ∀ z, db = some z → z.Holds fmt l

/-- Every step meets the condition on the members that are there before it. -/
@[grind =] def ZsetRunTame (cfg : ZsetConfig) (fmt : ScoreFormat S) (add : S → S → Option S) : Option (Zobj S) → List (ZUpdateCall S) → Prop
  | _, [] => True
  | db, c :: cs => (∀ l, DbHolds fmt db l → Tame cfg add db l c.1) ∧
      ∀ reply db', zsetUpdate cfg fmt add c.2 db c.1 = some (reply, db') → ZsetRunTame cfg fmt add db' cs

theorem DbGood.skiplist {db : Option (Zobj S)} {l : SortedSet S} (h : DbGood fmt db l) : SkiplistOk db := by
  intro zs hzs
  obtain ⟨ids, es, hok, -⟩ := (h.present _ hzs).1.holds
  exact ⟨ids, es, hok⟩

theorem zset_run_from (hread : fmt.Reads) : ∀ (cs : List (ZUpdateCall S)) {db : Option (Zobj S)} {l : SortedSet S}, DbGood fmt db l →
    ZsetRunTame cfg fmt add db cs → ZsetRunOk cfg fmt add db cs := by
  intro cs
  induction cs with
  | nil =>
    intro db l h _
    exact h.skiplist
  | cons c cs ih =>
    intro db l h htame
    obtain ⟨db', h1, h2⟩ := zsetUpdate_spec hread c.2 h c.1 (htame.1 l ⟨h.absent, fun z hz => (h.present z hz).1.holds⟩)
    exact ⟨h.skiplist, _, db', h1, ih h2 (htame.2 _ db' h1)⟩

theorem dbGood_empty : DbGood fmt (none : Option (Zobj S)) SortedSet.empty := ⟨fun _ => rfl, fun z hz => (by cases hz)⟩

theorem zset_run (hread : fmt.Reads) (cs : List (ZUpdateCall S)) (htame : ZsetRunTame cfg fmt add none cs) : ZsetRunOk cfg fmt add none cs :=
  zset_run_from hread cs dbGood_empty htame

theorem noClash_noNul {l : SortedSet S} (h : ∀ e ∈ l.elems, (0 : UInt8) ∉ e.2) : l.NoClash := fun _ _ b hb _ => not_clash (h b hb)

theorem mem_addMember {incr new : Bool} {l l' : SortedSet S} {e : Member S} {s : S} (h : l.addMember add incr e = some (s, new, l')) :
    ∀ a ∈ l'.elems, a.2 = e.2 ∨ a ∈ l.elems := by
  have hput : ∀ {s : S} {a : Member S}, a ∈ (l.put (s, e.2)).elems → a.2 = e.2 ∨ a ∈ l.elems := by
    intro s a ha
    rcases (SortedSet.mem_insert (e := (s, e.2)) (l.erase_not_mem e.2) a).1 ha with rfl | ha
    · exact Or.inl rfl
    · exact Or.inr (erase_sub l e.2 ha)
  unfold SortedSet.addMember at h
  cases hscore : l.score e.2 with
  | none =>
    rw [hscore] at h
    obtain ⟨-, -, rfl⟩ := Option.some.inj h
    exact fun a ha => hput ha
  | some cur =>
    rw [hscore] at h
    obtain ⟨s', -, heq⟩ := map_eq_some_iff.1 h
    cases heq
    exact fun a ha => hput ha

theorem addTame_noNul {incr : Bool} : ∀ (es : List (Member S)) {skip : Bool} {l : SortedSet S}, (∀ e ∈ l.elems, (0 : UInt8) ∉ e.2) →
    (∀ e ∈ es, (0 : UInt8) ∉ e.2) → AddTame cfg add incr skip l es
  | [], _, _, _, _ => trivial
  | e :: es, skip, l, hl, hes => by
    intro s new l' h
    have hl' : ∀ a ∈ l'.elems, (0 : UInt8) ∉ a.2 := by
      intro a ha
      rcases mem_addMember h a ha with heq | ha
      · rw [heq]
        exact hes e mem_cons_self
      · exact hl a ha
    exact ⟨fun _ => noClash_noNul hl', addTame_noNul es hl' fun a ha => hes a (mem_cons_of_mem e ha)⟩

theorem longZero_range : -2 ^ 63 ≤ (0 : ℤ) ∧ (0 : ℤ) < 2 ^ 63 := by decide

def longZero : Long := ⟨0, longZero_range⟩

def longFormat : ScoreFormat Long where
  d2string v := ll2string v.1
  strtod s := (string2ll s).getD longZero
  ofLong v := v

theorem longFormat_reads : longFormat.Reads := by
  intro v
  have hv := string2ll_iff.2 (rfl : ll2string v.1 = ll2string v.1)
  change zzlGetScore longFormat (Option.elim (if 32 ≤ (ll2string v.1).length ∨ (ll2string v.1).length = 0 then none else string2ll (ll2string v.1))
    (.str (ll2string v.1)) .int) = v
  by_cases hlen : 32 ≤ (ll2string v.1).length ∨ (ll2string v.1).length = 0
  · rw [if_pos hlen]
    change (string2ll (ll2string v.1)).getD _ = v
    rw [hv]
    rfl
  · rw [if_neg hlen, hv]
    rfl

def longAdd (s t : Long) : Option Long := if h : -2 ^ 63 ≤ s.1 + t.1 ∧ s.1 + t.1 < 2 ^ 63 then some ⟨s.1 + t.1, h⟩ else none

theorem zset_run_plain : ZsetRunOk ⟨0, 64⟩ longFormat longAdd none
    [(.zadd (longZero, ⟨[97], false⟩) [(longZero, ⟨[49, 50], false⟩)], fun _ => 1), (.zrem [[97]], fun _ => 0), (.zremrangebyrank 0 (-1), fun _ => 0)] :=
  zset_run longFormat_reads _ ⟨fun l hl => addTame_noNul _ (fun e he => by
      rw [hl.1 rfl] at he
      exact (not_mem_nil he).elim) (by decide), fun _ _ _ => ⟨fun _ _ => trivial, fun _ _ _ => ⟨fun _ _ => trivial, fun _ _ _ => trivial⟩⟩⟩

def clashRun : List (ZUpdateCall Long) :=
  [(.zadd (longZero, ⟨[49, 50], false⟩) [], fun _ => 0), (.zadd (longZero, ⟨[49, 50, 0, 97], false⟩) [], fun _ => 0), (.zrem [[49, 50]], fun _ => 0)]

/-- **An assertion fails**: the integer 12 and the bytes that begin with its numeral and a zero byte are the same to `strcmp`, and
`zslDelete` does not find the one behind the other. -/
theorem zset_run_clash : ¬ ZsetRunOk ⟨0, 64⟩ longFormat longAdd none clashRun := by
  rintro ⟨-, r1, db1, h1, -, r2, db2, h2, -, r3, db3, h3, -⟩
  have hrun : (((zsetUpdate ⟨0, 64⟩ longFormat longAdd (fun _ => 0) none (.zadd (longZero, ⟨[49, 50], false⟩) [])).bind fun r =>
      zsetUpdate ⟨0, 64⟩ longFormat longAdd (fun _ => 0) r.2 (.zadd (longZero, ⟨[49, 50, 0, 97], false⟩) [])).bind fun r =>
      zsetUpdate ⟨0, 64⟩ longFormat longAdd (fun _ => 0) r.2 (.zrem [[49, 50]])).isNone = true := by decide
  rw [h1, bind_some, h2, bind_some, h3] at hrun
  cases hrun

end KVStores.Redis
