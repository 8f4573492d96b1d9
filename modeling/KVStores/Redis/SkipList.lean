import KVStores.Lib.SkipList
import KVStores.Redis.Object
import Mathlib.Data.Prod.Lex

/-!
# Skip lists of sorted sets

The skip lists of Redis (`t_zset.c`). A node has a score and an object. A call that fails an
assertion, or follows a pointer that is not one, is a fault (`none`).
-/

namespace KVStores.Redis

variable {S : Type} [LinearOrder S]

def zskiplistMaxlevel : ℕ := 32

abbrev Zskiplist (S : Type) := SkipList (S × Robj)

def zslCreate : Zskiplist S := SkipList.create zskiplistMaxlevel

/-- `zslRandomLevel`, when its loop takes as many rounds. -/
def zslRandomLevel (rounds : ℕ) : ℕ := if rounds + 1 < zskiplistMaxlevel then rounds + 1 else zskiplistMaxlevel

/-- The condition of the loops of `zslInsert` and `zslDelete`. -/
def zslBefore (score : S) (obj : Robj) (e : S × Robj) : Bool :=
  decide (e.1 < score) || (decide (e.1 = score) && decide (compareStringObjects e.2 obj < 0))

/-- `zslInsert`: the new node. -/
def zslInsert (rounds : ℕ) (z : Zskiplist S) (score : S) (obj : Robj) : Option (ℕ × Zskiplist S) :=
  (z.search fun _ => zslBefore score obj).map fun s => (z.fresh, z.insertNode s (zslRandomLevel rounds) (score, obj))

/-- `zslDelete`: whether the element was found. -/
def zslDelete (z : Zskiplist S) (score : S) (obj : Robj) : Option (Bool × Zskiplist S) :=
  match z.search fun _ => zslBefore score obj with
  | none => none
  | some s =>
    match ((z.node s.x).level 0).forward with
    | none => some (false, z)
    | some x =>
      (z.node x).elem.map fun e =>
        if decide (score = e.1) && equalStringObjects e.2 obj then (true, z.deleteNode x s.update) else (false, z)

structure Zrangespec (S : Type) where
  min : S
  max : S
  minex : Bool
  maxex : Bool

def zslValueGteMin (value : S) (spec : Zrangespec S) : Bool := if spec.minex then decide (spec.min < value) else decide (spec.min ≤ value)

def zslValueLteMax (value : S) (spec : Zrangespec S) : Bool := if spec.maxex then decide (value < spec.max) else decide (value ≤ spec.max)

/-- The first test of `zslIsInRange` and `zzlIsInRange`: a range that is always empty. -/
def rangeEmpty (range : Zrangespec S) : Bool :=
  decide (range.max < range.min) || (decide (range.min = range.max) && (range.minex || range.maxex))

def zslIsInRange (z : Zskiplist S) (range : Zrangespec S) : Option Bool :=
  if rangeEmpty range then some false
  else
    match z.tail with
    | none => some false
    | some x =>
      (z.node x).elem.bind fun e =>
        if zslValueGteMin e.1 range then
          match ((z.node 0).level 0).forward with
          | none => some false
          | some x => (z.node x).elem.map fun e => zslValueLteMax e.1 range
        else some false

def zslFirstInRange (z : Zskiplist S) (range : Zrangespec S) : Option (Option ℕ) :=
  (zslIsInRange z range).bind fun inside =>
    if inside then
      (z.search fun _ e => !zslValueGteMin e.1 range).bind fun s =>
        ((z.node s.x).level 0).forward.bind fun x =>
          (z.node x).elem.map fun e => if zslValueLteMax e.1 range then some x else none
    else some none

def zslLastInRange (z : Zskiplist S) (range : Zrangespec S) : Option (Option ℕ) :=
  (zslIsInRange z range).bind fun inside =>
    if inside then
      (z.search fun _ e => zslValueLteMax e.1 range).bind fun s =>
        (z.node s.x).elem.map fun e => if zslValueGteMin e.1 range then some s.x else none
    else some none

/-- `zslGetRank`: 0 when there is no such element. -/
def zslGetRank (z : Zskiplist S) (score : S) (o : Robj) : Option ℕ :=
  (z.seek (fun _ e => decide (e.1 < score) || (decide (e.1 = score) && decide (compareStringObjects e.2 o ≤ 0)))
    (fun x _ => (z.node x).elem.any fun e => equalStringObjects e.2 o) z.level 0 0).map fun found => found.elim 0 Prod.snd

def zslGetElementByRank (z : Zskiplist S) (rank : ℕ) : Option (Option ℕ) :=
  (z.seek (fun r _ => decide (r ≤ rank)) (fun _ traversed => decide (traversed = rank)) z.level 0 0).map fun found => found.map Prod.fst

/-- The second loops of `zslDeleteRangeByScore` and `zslDeleteRangeByRank`: the objects that are deleted from the dict as well. -/
@[grind =] def zslDeleteWhile (inside : ℕ → S × Robj → Bool) (update : ℕ → ℕ) : ℕ → ℕ → Option ℕ → Zskiplist S → Option (List Robj × Zskiplist S)
  | 0, _, _, _ => none
  | fuel + 1, traversed, x, z =>
    match x with
    | none => some ([], z)
    | some x =>
      (z.node x).elem.bind fun e =>
        if inside traversed e then
          (zslDeleteWhile inside update fuel (traversed + 1) ((z.node x).level 0).forward (z.deleteNode x update)).map fun r => (e.2 :: r.1, r.2)
        else some ([], z)

def zslDeleteRangeByScore (z : Zskiplist S) (range : Zrangespec S) : Option (List Robj × Zskiplist S) :=
  (z.search fun _ e => if range.minex then decide (e.1 ≤ range.min) else decide (e.1 < range.min)).bind fun s =>
    zslDeleteWhile (fun _ e => if range.maxex then decide (e.1 < range.max) else decide (e.1 ≤ range.max)) s.update (z.length + 1) 0
      ((z.node s.x).level 0).forward z

def zslDeleteRangeByRank (z : Zskiplist S) (start stop : ℕ) : Option (List Robj × Zskiplist S) :=
  (z.search fun r _ => decide (r < start)).bind fun s =>
    zslDeleteWhile (fun traversed _ => decide (traversed ≤ stop)) s.update (z.length + 1) (s.traversed + 1) ((z.node s.x).level 0).forward z

end KVStores.Redis
