import KVStores.Redis.ZsetQueries
import KVStores.Redis.ZsetRun

/-!
# Replies of sorted set commands

`zset_replies`: **the replies are those of a sorted list**, whatever the settings are and so whatever encoding the set has at each moment, when
no member that is added has a zero byte.
-/

namespace KVStores.Redis

open List Option

variable {S : Type} [LinearOrder S] {fmt : ScoreFormat S} {cfg : ZsetConfig} {add : S → S → Option S}

inductive ZCommand (S : Type)
  | update (u : ZUpdate S)
  | query (q : ZQuery S)

def ZUpdate.added : ZUpdate S → List (List UInt8)
  | .zadd first more => (first :: more).map fun e => e.2.bytes
  | .zincrby _ member => [member.bytes]
  | _ => []

@[grind =] def ZCommand.added : ZCommand S → List (List UInt8)
  | .update u => u.added
  | .query _ => []

/-- The replies to commands on a key, one after the other; with each command come the rounds of `zslRandomLevel` for the nodes that it makes. -/
@[grind =] def zsetRun (cfg : ZsetConfig) (fmt : ScoreFormat S) (add : S → S → Option S) : Option (Zobj S) → List (ZCommand S × (ℕ → ℕ)) → Option (List (ZReply S))
  | _, [] => some []
  | db, (.update u, rounds) :: cs => (zsetUpdate cfg fmt add rounds db u).bind fun r => (zsetRun cfg fmt add r.2 cs).map fun replies => r.1 :: replies
  | db, (.query q, _) :: cs => (zsetQuery fmt db q).bind fun r => (zsetRun cfg fmt add db cs).map fun replies => r :: replies

@[grind =] def sortedRun (add : S → S → Option S) : SortedSet S → List (ZCommand S) → List (ZReply S)
  | _, [] => []
  | l, .update u :: cs => (l.update add u).1 :: sortedRun add (l.update add u).2 cs
  | l, .query q :: cs => l.query q :: sortedRun add l cs

variable {l : SortedSet S}

theorem mem_addMembers {incr : Bool} : ∀ (es : List (Member S)) {added : ℕ} {score : S} {l : SortedSet S},
    ∀ a ∈ (l.addMembers add incr added score es).2.elems, a ∈ l.elems ∨ a.2 ∈ es.map Prod.snd := by
  intro es
  induction es with
  | nil =>
    intro added score l a ha
    exact Or.inl ha
  | cons e es ih =>
    intro added score l a ha
    rw [SortedSet.addMembers] at ha
    cases hadd : l.addMember add incr e with
    | none =>
      rw [hadd] at ha
      exact Or.inl ha
    | some r =>
      rw [hadd] at ha
      rcases ih a ha with h | h
      · rcases mem_addMember hadd a h with h | h
        · exact Or.inr (h ▸ mem_cons_self)
        · exact Or.inl h
      · exact Or.inr (mem_cons_of_mem _ h)

theorem mem_remMembers : ∀ (ms : List (List UInt8)) {deleted : ℕ} {l : SortedSet S}, ∀ a ∈ (l.remMembers deleted ms).2.elems, a ∈ l.elems := by
  intro ms
  induction ms with
  | nil =>
    intro deleted l a ha
    exact ha
  | cons m ms ih =>
    intro deleted l a ha
    rw [SortedSet.remMembers] at ha
    by_cases hm : (l.score m).isSome = true
    · rw [if_pos hm] at ha
      exact erase_sub l m (ih a ha)
    · rw [if_neg hm] at ha
      exact ih a ha

theorem noNul_update (h : l.NoNul) (u : ZUpdate S) (hu : ∀ m ∈ u.added, (0 : UInt8) ∉ m) : (l.update add u).2.NoNul := by
  have hadded : ∀ {incr : Bool} {score : S} {es : List (Member S)}, (∀ m ∈ es.map Prod.snd, (0 : UInt8) ∉ m) →
      (l.addMembers add incr 0 score es).2.NoNul := by
    intro incr score es hes a ha
    rcases mem_addMembers es a ha with ha | ha
    · exact h a ha
    · exact hes a.2 ha
  cases u with
  | zadd first more => exact hadded (by rw [List.map_map]; exact hu)
  | zincrby score member => exact hadded hu
  | zrem members => exact fun a ha => h a (mem_remMembers members a ha)
  | zremrangebyscore range => exact fun a ha => h a (mem_filter.1 ha).1
  | zremrangebyrank start stop =>
    intro a ha
    rcases mem_append.1 ha with ha | ha
    · exact h a (mem_of_mem_take ha)
    · exact h a (mem_of_mem_drop ha)

theorem tame_noNul {db : Option (Zobj S)} (h : l.NoNul) (u : ZUpdate S) (hu : ∀ m ∈ u.added, (0 : UInt8) ∉ m) : Tame cfg add db l u := by
  cases u with
  | zadd first more =>
    refine addTame_noNul _ h fun e he => ?_
    obtain ⟨a, ha, rfl⟩ := List.mem_map.1 he
    exact hu _ (List.mem_map.2 ⟨a, ha, rfl⟩)
  | zincrby score member =>
    refine addTame_noNul _ h fun e he => ?_
    rw [mem_singleton.1 he]
    exact hu _ mem_cons_self
  | zrem members => trivial
  | zremrangebyscore range => trivial
  | zremrangebyrank start stop => trivial

theorem zset_replies_from (hread : fmt.Reads) : ∀ (cs : List (ZCommand S × (ℕ → ℕ))) {db : Option (Zobj S)} {l : SortedSet S}, DbGood fmt db l → l.NoNul →
    (∀ c ∈ cs, ∀ m ∈ c.1.added, (0 : UInt8) ∉ m) → zsetRun cfg fmt add db cs = some (sortedRun add l (cs.map Prod.fst)) := by
  intro cs
  induction cs with
  | nil =>
    intro db l _ _ _
    rfl
  | cons c cs ih =>
    intro db l h hnul hcs
    obtain ⟨command, rounds⟩ := c
    have hrest : ∀ c ∈ cs, ∀ m ∈ c.1.added, (0 : UInt8) ∉ m := fun c hc => hcs c (mem_cons_of_mem _ hc)
    cases command with
    | update u =>
      have hu : ∀ m ∈ u.added, (0 : UInt8) ∉ m := hcs _ mem_cons_self
      obtain ⟨db', h1, h2⟩ := zsetUpdate_spec hread rounds h u (tame_noNul hnul u hu)
      rw [zsetRun, h1, bind_some, ih h2 (noNul_update hnul u hu) hrest]
      rfl
    | query q =>
      rw [zsetRun, zsetQuery_spec hread h hnul q, bind_some, ih h hnul hrest]
      rfl

/-- **The replies are those of a sorted list**, whatever the settings are, when no member that is added has a zero byte. -/
theorem zset_replies (cfg : ZsetConfig) (hread : fmt.Reads) (cs : List (ZCommand S × (ℕ → ℕ))) (hcs : ∀ c ∈ cs, ∀ m ∈ c.1.added, (0 : UInt8) ∉ m) :
    zsetRun cfg fmt add none cs = some (sortedRun add .empty (cs.map Prod.fst)) :=
  zset_replies_from hread cs dbGood_empty (fun _ ha => (not_mem_nil ha).elim) hcs

theorem zset_replies_some : zsetRun ⟨1, 64⟩ longFormat longAdd none
    [(.update (.zadd (longZero, ⟨[97], false⟩) []), fun _ => 0), (.query (.zrank false ⟨[97], false⟩), fun _ => 0),
      (.update (.zincrby longZero ⟨[49, 50], false⟩), fun _ => 2), (.query (.zrange true false 0 (-1)), fun _ => 0)] =
    some [.number 1, .number 0, .double longZero, .multibulk [([97], none), ([49, 50], none)]] :=
  (zset_replies ⟨1, 64⟩ longFormat_reads _ (by decide)).trans (by decide)

end KVStores.Redis
