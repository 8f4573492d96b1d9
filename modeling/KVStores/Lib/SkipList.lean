import Mathlib.Data.List.Basic
import Mathlib.Algebra.Order.Ring.Nat

/-!
# Skip lists

Linked lists with links on several levels. The nodes are in a memory, the header at address 0; a
link says how many nodes it spans.
-/

namespace KVStores

open List Option Function

/-- A link forward: a span without a node reaches the end of the list. -/
@[ext] structure SkipLink where
  forward : Option ℕ
  span : ℕ
deriving DecidableEq

structure SkipNode (α : Type) where
  elem : Option α
  backward : Option ℕ
  height : ℕ
  level : ℕ → SkipLink

/-- A skip list; `fresh` is the next address. -/
structure SkipList (α : Type) where
  node : ℕ → SkipNode α
  tail : Option ℕ
  length : ℕ
  level : ℕ
  fresh : ℕ

namespace SkipList

variable {α : Type}

def create (maxLevel : ℕ) : SkipList α := ⟨fun _ => ⟨none, none, maxLevel, fun _ => ⟨none, 0⟩⟩, none, 0, 1, 1⟩

/-- Along a level as long as the rank and the element of the next node allow it. -/
@[grind =] def walk (z : SkipList α) (pass : ℕ → α → Bool) (i : ℕ) : ℕ → ℕ → ℕ → Option (ℕ × ℕ)
  | 0, _, _ => none
  | fuel + 1, x, rank =>
    match ((z.node x).level i).forward with
    | none => some (x, rank)
    | some y =>
      match (z.node y).elem with
      | none => none
      | some e => if pass (rank + ((z.node x).level i).span) e then walk z pass i fuel y (rank + ((z.node x).level i).span) else some (x, rank)

/-- Where a search is, and the node and the rank at which it has left each level. -/
structure Found where
  x : ℕ
  traversed : ℕ
  update : ℕ → ℕ
  rank : ℕ → ℕ

def descend (z : SkipList α) (pass : ℕ → α → Bool) : ℕ → Found → Option Found
  | 0, s => some s
  | i + 1, s =>
    match z.walk pass i (z.length + 1) s.x s.traversed with
    | none => none
    | some (x, rank) => z.descend pass i ⟨x, rank, Function.update s.update i x, Function.update s.rank i rank⟩

def search (z : SkipList α) (pass : ℕ → α → Bool) : Option Found := z.descend pass z.level ⟨0, 0, fun _ => 0, fun _ => 0⟩

/-- Down the levels below the given one, until a level is left at a node and a rank at which the search ends. -/
def seek (z : SkipList α) (pass : ℕ → α → Bool) (stop : ℕ → ℕ → Bool) : ℕ → ℕ → ℕ → Option (Option (ℕ × ℕ))
  | 0, _, _ => some none
  | i + 1, x, rank =>
    match z.walk pass i (z.length + 1) x rank with
    | none => none
    | some (x, rank) => if stop x rank then some (some (x, rank)) else z.seek pass stop i x rank

/-- On each level below `n`, the link of one node is set. -/
def setLinks (z : SkipList α) (n : ℕ) (update : ℕ → ℕ) (f : ℕ → SkipLink → SkipLink) : ℕ → SkipNode α :=
  fun y => { z.node y with level := fun i => if i < n ∧ update i = y then f i ((z.node y).level i) else (z.node y).level i }

/-- The header, with links on as many levels as there are, over the whole list. -/
def raise (z : SkipList α) (level : ℕ) : SkipList α :=
  if z.level < level then
    { z with
      node := z.setLinks level (fun _ => 0) fun i l => if z.level ≤ i then { l with span := z.length } else l
      level := level }
  else z

/-- A new node of a height behind the given nodes, one for each level. -/
def place (z : SkipList α) (update rank : ℕ → ℕ) (height : ℕ) (e : α) : SkipList α :=
  let forward := fun i => ((z.node (update i)).level i).forward
  let x : SkipNode α := ⟨some e, if update 0 = 0 then none else some (update 0), height,
    fun i => ⟨forward i, ((z.node (update i)).level i).span - (rank 0 - rank i)⟩⟩
  let node := z.setLinks z.level update fun i l => if i < height then ⟨some z.fresh, rank 0 - rank i + 1⟩ else { l with span := l.span + 1 }
  { z with
    node := fun y => if y = z.fresh then x else if forward 0 = some y then { node y with backward := some z.fresh } else node y
    tail := if (forward 0).isSome then z.tail else some z.fresh
    length := z.length + 1
    fresh := z.fresh + 1 }

def insertNode (z : SkipList α) (s : Found) (height : ℕ) (e : α) : SkipList α :=
  (z.raise height).place (fun i => if z.level ≤ i then 0 else s.update i) (fun i => if z.level ≤ i then 0 else s.rank i) height e

/-- The levels without those on which the header has no node. -/
@[grind =] def lower (header : ℕ → SkipLink) : ℕ → ℕ
  | 0 => 0
  | n + 1 => if 1 < n + 1 ∧ (header n).forward = none then lower header n else n + 1

def deleteNode (z : SkipList α) (x : ℕ) (update : ℕ → ℕ) : SkipList α :=
  let node := z.setLinks z.level update fun i l =>
    if l.forward = some x then ⟨((z.node x).level i).forward, l.span + ((z.node x).level i).span - 1⟩ else { l with span := l.span - 1 }
  let forward := ((z.node x).level 0).forward
  { z with
    node := fun y => if forward = some y then { node y with backward := (z.node x).backward } else node y
    tail := if forward.isSome then z.tail else (z.node x).backward
    length := z.length - 1
    level := lower (node 0).level z.level }

/-- The link on a level by the nodes that follow: to the first one that is high enough. -/
@[grind =] def link (hgt : ℕ → ℕ) (i : ℕ) : List ℕ → SkipLink
  | [] => ⟨none, 0⟩
  | y :: l => if i < hgt y then ⟨some y, 1⟩ else ⟨(link hgt i l).forward, (link hgt i l).span + 1⟩

variable {hgt hgt' : ℕ → ℕ} {i : ℕ} {l l' pre post : List ℕ}

theorem link_congr (h : ∀ y ∈ l, hgt y = hgt' y) : link hgt i l = link hgt' i l := by
  induction l with
  | nil => rfl
  | cons y l ih =>
    rw [link, link, h y mem_cons_self, ih fun w hw => h w (mem_cons_of_mem y hw)]

theorem link_low (h : ∀ y ∈ l, hgt y ≤ i) : link hgt i (l ++ l') = ⟨(link hgt i l').forward, l.length + (link hgt i l').span⟩ := by
  induction l with
  | nil => rw [nil_append, length_nil, Nat.zero_add]
  | cons y l ih =>
    have hy := h y mem_cons_self
    rw [cons_append, link, if_neg (by omega), ih fun w hw => h w (mem_cons_of_mem y hw), length_cons]
    ext1
    · rfl
    · change l.length + (link hgt i l').span + 1 = l.length + 1 + (link hgt i l').span
      omega

theorem link_found {y : ℕ} (h : ∀ w ∈ l, hgt w ≤ i) (hy : i < hgt y) : link hgt i (l ++ y :: l') = ⟨some y, l.length + 1⟩ := by
  rw [link_low h, link, if_pos hy]

theorem link_end (h : ∀ w ∈ l, hgt w ≤ i) : link hgt i l = ⟨none, l.length⟩ := by
  have hnil : link hgt i (l ++ []) = _ := link_low h
  rwa [append_nil] at hnil

theorem low_or_found (hgt : ℕ → ℕ) (i : ℕ) (l : List ℕ) :
    (∀ y ∈ l, hgt y ≤ i) ∨ ∃ a y b, l = a ++ y :: b ∧ (∀ w ∈ a, hgt w ≤ i) ∧ i < hgt y := by
  induction l with
  | nil => exact Or.inl fun y hy => (not_mem_nil hy).elim
  | cons x l ih =>
    by_cases hx : i < hgt x
    · exact Or.inr ⟨[], x, l, rfl, fun w hw => (not_mem_nil hw).elim, hx⟩
    · rcases ih with h | ⟨a, y, b, rfl, ha, hy⟩
      · refine Or.inl fun y hy => ?_
        rcases mem_cons.1 hy with rfl | hy
        · exact not_lt.1 hx
        · exact h y hy
      · refine Or.inr ⟨x :: a, y, b, rfl, fun w hw => ?_, hy⟩
        rcases mem_cons.1 hw with rfl | hw
        · exact not_lt.1 hx
        · exact ha w hw

theorem link_prefix {y : ℕ} (hy : y ∈ l) (hi : i < hgt y) (l' l'' : List ℕ) : link hgt i (l ++ l') = link hgt i (l ++ l'') := by
  rcases low_or_found hgt i l with h | ⟨a, w, b, rfl, ha, hw⟩
  · exact absurd (h y hy) (by omega)
  · rw [append_assoc, append_assoc, cons_append, cons_append, link_found ha hw, link_found ha hw]

variable {z : SkipList α} {ids : List ℕ}

/-- On how many levels a node has links that are kept; for the header those of the list. -/
def height (z : SkipList α) (x : ℕ) : ℕ := if x = 0 then z.level else (z.node x).height

/-- The nodes of a list in order, with the links that they are to have, and their elements. -/
structure Layout (maxLevel : ℕ) (z : SkipList α) (ids : List ℕ) (es : List α) : Prop where
  nodup : (0 :: ids).Nodup
  fresh : ∀ x ∈ 0 :: ids, x < z.fresh
  levels : 1 ≤ z.level ∧ z.level ≤ maxLevel
  heights : ∀ x ∈ ids, 1 ≤ (z.node x).height ∧ (z.node x).height ≤ z.level
  links : ∀ a x b, 0 :: ids = a ++ x :: b → ∀ i < z.height x, (z.node x).level i = link z.height i b
  unused : ∀ i, z.level ≤ i → ((z.node 0).level i).forward = none
  elems : ids.map (fun x => (z.node x).elem) = es.map some
  header : (z.node 0).elem = none
  backward : ∀ a x y b, 0 :: ids = a ++ x :: y :: b → (z.node y).backward = if x = 0 then none else some x
  tail : z.tail = ids.getLast?
  length : z.length = ids.length

theorem height_pos (x : ℕ) (hx : x ≠ 0) : z.height x = (z.node x).height := if_neg hx

theorem create_layout {maxLevel : ℕ} (h : 1 ≤ maxLevel) : Layout maxLevel (create maxLevel : SkipList α) [] [] := by
  refine ⟨nodup_cons.2 ⟨not_mem_nil, nodup_nil⟩, fun x hx => ?_, ⟨le_refl 1, h⟩, fun x hx => (not_mem_nil hx).elim, fun a x b hab i hi => ?_,
    fun _ _ => rfl, rfl, rfl, fun a x y b hab => ?_, rfl, rfl⟩
  · rw [mem_singleton.1 hx]
    exact Nat.zero_lt_one
  · cases a with
    | nil =>
      obtain ⟨rfl, rfl⟩ := List.cons.inj hab
      rfl
    | cons w a =>
      have := (List.cons.inj hab).2
      exact absurd this.symm (append_ne_nil_of_right_ne_nil a (cons_ne_nil x b))
  · have := congrArg List.length hab
    rw [length_append, length_cons, length_cons, length_cons, length_nil] at this
    omega

namespace Layout

variable {maxLevel : ℕ} {es : List α}

theorem es_length (h : Layout maxLevel z ids es) : ids.length = es.length := by
  have := congrArg List.length h.elems
  rwa [length_map, length_map] at this

variable {x : ℕ}

theorem ne_zero (h : Layout maxLevel z ids es) (hx : x ∈ ids) : x ≠ 0 := by
  rintro rfl
  exact (nodup_cons.1 h.nodup).1 hx

theorem height_le (h : Layout maxLevel z ids es) (hx : x ∈ 0 :: ids) : z.height x ≤ z.level := by
  rcases mem_cons.1 hx with rfl | hx
  · exact le_refl _
  · rw [height_pos x (h.ne_zero hx)]
    exact (h.heights x hx).2

theorem one_le_height (h : Layout maxLevel z ids es) (hx : x ∈ 0 :: ids) : 1 ≤ z.height x := by
  rcases mem_cons.1 hx with rfl | hx
  · exact h.levels.1
  · rw [height_pos x (h.ne_zero hx)]
    exact (h.heights x hx).1

theorem elem_at (h : Layout maxLevel z ids es) {a b : List ℕ} (hids : ids = a ++ x :: b) :
    ∃ ea e eb, es = ea ++ e :: eb ∧ ea.length = a.length ∧ (z.node x).elem = some e := by
  have helems := h.elems
  rw [hids, map_append, map_cons] at helems
  obtain ⟨ea, r, rfl, hea, hr⟩ := map_eq_append_iff.1 helems.symm
  obtain ⟨e, eb, rfl, he, heb⟩ := map_eq_cons_iff.1 hr
  refine ⟨ea, e, eb, rfl, ?_, he.symm⟩
  have := congrArg List.length hea
  rwa [length_map, length_map] at this

end Layout

/-- The last one of some nodes that has a level, and its place among them. -/
def LastAt (hgt : ℕ → ℕ) (l : List ℕ) (i x rank : ℕ) : Prop :=
  ∃ a b, l = a ++ x :: b ∧ i < hgt x ∧ (∀ y ∈ b, hgt y ≤ i) ∧ rank = a.length

variable {x : ℕ}

theorem LastAt.unique {x' r r' : ℕ} (h : LastAt hgt l i x r) (h' : LastAt hgt l i x' r') : x = x' ∧ r = r' := by
  obtain ⟨a, b, rfl, hx, hb, rfl⟩ := h
  obtain ⟨a', b', heq, hx', hb', rfl⟩ := h'
  rcases append_eq_append_iff.1 heq with ⟨c, rfl, hc⟩ | ⟨c, rfl, hc⟩
  · cases c with
    | nil =>
      exact ⟨(List.cons.inj hc).1, by rw [append_nil]⟩
    | cons w c =>
      have hmem : x' ∈ b := by
        rw [(List.cons.inj hc).2]
        exact mem_append_right _ mem_cons_self
      exact absurd (hb x' hmem) (by omega)
  · cases c with
    | nil =>
      rw [nil_append] at hc
      exact ⟨(List.cons.inj hc).1.symm, by rw [append_nil]⟩
    | cons w c =>
      rw [cons_append] at hc
      have hmem : x ∈ b' := by
        rw [(List.cons.inj hc).2]
        exact mem_append_right _ mem_cons_self
      exact absurd (hb' x hmem) (by omega)

/-- A search is to pass the first nodes and not the one behind them. -/
structure Passes (z : SkipList α) (pass : ℕ → α → Bool) (pre post : List ℕ) : Prop where
  before : ∀ a x b e, pre = a ++ x :: b → (z.node x).elem = some e → pass (a.length + 1) e = true
  behind : ∀ a x b e, post = a ++ x :: b → (z.node x).elem = some e → pass (pre.length + a.length + 1) e = false

variable {maxLevel : ℕ} {es : List α} {pass : ℕ → α → Bool}

theorem walk_spec (h : Layout maxLevel z (pre ++ post) es) (hp : Passes z pass pre post) : ∀ (fuel : ℕ) {a b : List ℕ} {x : ℕ},
    0 :: pre = a ++ x :: b → i < z.height x → b.length < fuel →
    ∃ x' rank, z.walk pass i fuel x a.length = some (x', rank) ∧ LastAt z.height (0 :: pre) i x' rank := by
  intro fuel
  induction fuel with
  | zero =>
    intro a b x _ _ hfuel
    exact absurd hfuel (Nat.not_lt_zero _)
  | succ fuel ih =>
    intro a b x hsplit hi hfuel
    have hall : 0 :: (pre ++ post) = a ++ x :: (b ++ post) := by
      rw [← cons_append, hsplit, append_assoc, cons_append]
    have hlink := h.links a x (b ++ post) hall i hi
    rw [walk, hlink]
    rcases low_or_found z.height i b with hlow | ⟨c, y, b', rfl, hc, hy⟩
    · -- the link ends behind the nodes to pass
      have hlast : LastAt z.height (0 :: pre) i x a.length := ⟨a, b, hsplit, hi, hlow, rfl⟩
      rcases low_or_found z.height i post with hpost | ⟨c, y, b', hpost, hc, hy⟩
      · rw [link_end fun w hw => (mem_append.1 hw).elim (hlow w) (hpost w)]
        exact ⟨x, a.length, rfl, hlast⟩
      · have hlow' : ∀ w ∈ b ++ c, z.height w ≤ i := fun w hw => (mem_append.1 hw).elim (hlow w) (hc w)
        rw [hpost, ← append_assoc, link_found hlow' hy]
        obtain ⟨ea, e, eb, -, -, he⟩ := h.elem_at (show pre ++ post = (pre ++ c) ++ y :: b' by rw [hpost, append_assoc])
        have hno := hp.behind c y b' e hpost he
        have hrank : a.length + ((b ++ c).length + 1) = pre.length + c.length + 1 := by
          have := congrArg List.length hsplit
          rw [length_cons, length_append, length_cons] at this
          rw [length_append]
          omega
        dsimp only
        rw [he]
        dsimp only
        rw [hrank, hno, if_neg Bool.false_ne_true]
        exact ⟨x, a.length, rfl, hlast⟩
    · -- the link ends at a node to pass
      have hfound : link z.height i (c ++ y :: b' ++ post) = ⟨some y, c.length + 1⟩ := by
        rw [append_assoc, cons_append, link_found hc hy]
      have hsplit' : 0 :: pre = (a ++ x :: c) ++ y :: b' := by
        rw [hsplit, append_assoc, cons_append]
      -- it is not the header
      obtain ⟨a', hac, hpre⟩ : ∃ a', a ++ x :: c = 0 :: a' ∧ pre = a' ++ y :: b' := by
        cases hac : a ++ x :: c with
        | nil => exact absurd hac (append_ne_nil_of_right_ne_nil a (cons_ne_nil x c))
        | cons w a' =>
          rw [hac, cons_append] at hsplit'
          obtain ⟨rfl, hpre⟩ := List.cons.inj hsplit'
          exact ⟨a', rfl, hpre⟩
      obtain ⟨ea, e, eb, -, -, he⟩ := h.elem_at (show pre ++ post = a' ++ y :: (b' ++ post) by rw [hpre, append_assoc, cons_append])
      have hyes := hp.before a' y b' e hpre he
      have hlen : a.length + (c.length + 1) = a'.length + 1 := by
        have := congrArg List.length hac
        rw [length_append, length_cons, length_cons] at this
        omega
      have hlen' : a.length + (c.length + 1) = (a ++ x :: c).length := by rw [length_append, length_cons]
      rw [length_append, length_cons] at hfuel
      obtain ⟨x', rank, h1, h2⟩ := ih hsplit' hy (by omega)
      rw [hfound]
      dsimp only
      rw [he]
      dsimp only
      rw [hlen, hyes, if_pos rfl, ← hlen, hlen']
      exact ⟨x', rank, h1, h2⟩

theorem descend_spec (h : Layout maxLevel z (pre ++ post) es) (hp : Passes z pass pre post) : ∀ (n : ℕ) {s : Found} {a b : List ℕ},
    0 :: pre = a ++ s.x :: b → s.traversed = a.length → n ≤ z.height s.x →
    ∃ s', z.descend pass n s = some s' ∧ (∀ i < n, LastAt z.height (0 :: pre) i (s'.update i) (s'.rank i)) ∧
      (∀ i, n ≤ i → s'.update i = s.update i ∧ s'.rank i = s.rank i) ∧
      (0 < n → s'.x = s'.update 0 ∧ s'.traversed = s'.rank 0) := by
  intro n
  induction n with
  | zero =>
    intro s a b _ _ _
    exact ⟨s, rfl, fun i hi => absurd hi (Nat.not_lt_zero i), fun _ _ => ⟨rfl, rfl⟩, fun hc => absurd hc (lt_irrefl 0)⟩
  | succ n ih =>
    intro s a b hsplit htraversed hn
    have hlen : b.length < z.length + 1 := by
      have := congrArg List.length hsplit
      rw [length_cons, length_append, length_cons] at this
      rw [h.length, length_append]
      omega
    obtain ⟨x', rank, hwalk, hlast⟩ := walk_spec (i := n) h hp (z.length + 1) hsplit (by omega) hlen
    obtain ⟨a', b', hsplit', hx', hb', rfl⟩ := hlast
    rw [descend, htraversed, hwalk]
    obtain ⟨s', h1, h2, h3, h4⟩ := @ih ⟨x', a'.length, Function.update s.update n x', Function.update s.rank n a'.length⟩ a' b' hsplit' rfl
      (by change n ≤ z.height x'; omega)
    dsimp only at h3
    have hn' := h3 n (le_refl n)
    rw [update_self, update_self] at hn'
    refine ⟨s', h1, fun i hi => ?_, fun i hi => ?_, fun _ => ?_⟩
    · rcases Nat.lt_succ_iff_lt_or_eq.1 hi with hi | rfl
      · exact h2 i hi
      · rw [hn'.1, hn'.2]
        exact ⟨a', b', hsplit', hx', hb', rfl⟩
    · have hi' := h3 i (by omega)
      rwa [update_of_ne (by omega), update_of_ne (by omega)] at hi'
    · cases n with
      | zero =>
        obtain rfl : s' = _ := (Option.some.inj h1).symm
        exact ⟨hn'.1.symm, hn'.2.symm⟩
      | succ n => exact h4 (Nat.succ_pos n)

/-- Where a search ends: at the last of the nodes to pass, with the last of them on each level. -/
structure Searched (z : SkipList α) (pre : List ℕ) (s : Found) : Prop where
  update : ∀ i < z.level, LastAt z.height (0 :: pre) i (s.update i) (s.rank i)
  last : ∃ a, 0 :: pre = a ++ [s.x]
  x : s.x = s.update 0
  traversed : s.traversed = pre.length
  rank : s.rank 0 = pre.length

theorem search_spec (h : Layout maxLevel z (pre ++ post) es) (hp : Passes z pass pre post) : ∃ s, z.search pass = some s ∧ Searched z pre s := by
  have hheader : z.level ≤ z.height 0 := le_of_eq (if_pos rfl).symm
  obtain ⟨s, h1, h2, -, h4⟩ := descend_spec h hp z.level (s := ⟨0, 0, fun _ => 0, fun _ => 0⟩) (a := []) (b := pre) rfl rfl hheader
  obtain ⟨hx, htraversed⟩ := h4 h.levels.1
  -- every node is on the lowest level
  obtain ⟨a, b, hab, hpos, hb, hrank⟩ := h2 0 h.levels.1
  have hnil : b = [] := by
    cases b with
    | nil => rfl
    | cons y b =>
      have hmem : y ∈ 0 :: (pre ++ post) := by
        rw [← cons_append, hab, append_assoc]
        exact mem_append_right a (mem_cons_of_mem _ mem_cons_self)
      have := h.one_le_height hmem
      have := hb y mem_cons_self
      omega
  subst hnil
  have hlen : a.length = pre.length := by
    have := congrArg List.length hab
    rw [length_cons, length_append, length_cons, length_nil] at this
    omega
  exact ⟨s, h1, h2, ⟨a, by rw [hx]; exact hab⟩, hx, by rw [htraversed, hrank, hlen], by rw [hrank, hlen]⟩

theorem seek_spec (stop : ℕ → ℕ → Bool) {a : List ℕ} {t : ℕ} (h : Layout maxLevel z (pre ++ post) es) (hp : Passes z pass pre post)
    (hlast : 0 :: pre = a ++ [t]) (hstop : stop t pre.length = true)
    (hgo : ∀ c x d, 0 :: pre = c ++ x :: d → d ≠ [] → stop x c.length = false) : z.seek pass stop z.level 0 0 = some (some (t, pre.length)) := by
  have hloop : ∀ (n : ℕ) {c d : List ℕ} {x : ℕ}, 0 :: pre = c ++ x :: d → n ≤ z.height x → 0 < n →
      z.seek pass stop n x c.length = some (some (t, pre.length)) := by
    intro n
    induction n with
    | zero =>
      intro c d x _ _ hpos
      exact absurd hpos (lt_irrefl 0)
    | succ n ih =>
      intro c d x hcd hn _
      have hlen : d.length < z.length + 1 := by
        have hall := congrArg List.length hcd
        rw [length_cons, length_append, length_cons] at hall
        rw [h.length, length_append]
        omega
      obtain ⟨x', rank, hwalk, hlastAt⟩ := walk_spec (i := n) h hp (z.length + 1) hcd (by omega) hlen
      rw [seek, hwalk]
      dsimp only
      obtain ⟨c', d', hcd', hx', hd', rfl⟩ := hlastAt
      cases d' with
      | nil =>
        -- at the last node to pass
        rw [hlast] at hcd'
        obtain ⟨rfl, hx⟩ := append_inj' hcd' rfl
        obtain rfl := singleton_injective hx
        have hall := congrArg List.length hlast
        rw [length_cons, length_append, length_singleton] at hall
        rw [← Nat.succ.inj hall, hstop, if_pos rfl]
      | cons w d' =>
        rw [hgo c' x' (w :: d') hcd' (cons_ne_nil w d'), if_neg Bool.false_ne_true]
        refine ih hcd' (by omega) (Nat.pos_of_ne_zero ?_)
        rintro rfl
        -- every node is on the lowest level
        have hpos := h.one_le_height (x := w) (by
          rw [← cons_append, hcd', append_assoc]
          exact mem_append_right c' (mem_cons_of_mem x' mem_cons_self))
        have := hd' w mem_cons_self
        omega
  exact hloop z.level (c := []) (d := pre) rfl (le_of_eq (if_pos rfl).symm) h.levels.1

theorem seek_none (stop : ℕ → ℕ → Bool) (h : Layout maxLevel z (pre ++ post) es) (hp : Passes z pass pre post)
    (hgo : ∀ c x d, 0 :: pre = c ++ x :: d → stop x c.length = false) : z.seek pass stop z.level 0 0 = some none := by
  have hloop : ∀ (n : ℕ) {c d : List ℕ} {x : ℕ}, 0 :: pre = c ++ x :: d → n ≤ z.height x → z.seek pass stop n x c.length = some none := by
    intro n
    induction n with
    | zero =>
      intro c d x _ _
      rfl
    | succ n ih =>
      intro c d x hcd hn
      have hlen : d.length < z.length + 1 := by
        have hall := congrArg List.length hcd
        rw [length_cons, length_append, length_cons] at hall
        rw [h.length, length_append]
        omega
      obtain ⟨x', rank, hwalk, c', d', hcd', hx', -, rfl⟩ := walk_spec (i := n) h hp (z.length + 1) hcd (by omega) hlen
      rw [seek, hwalk]
      dsimp only
      rw [hgo c' x' d' hcd', if_neg Bool.false_ne_true]
      exact ih hcd' (by omega)
  exact hloop z.level (c := []) (d := pre) rfl (le_of_eq (if_pos rfl).symm)

namespace Layout

variable {ea eb : List α}

theorem split (h : Layout maxLevel z ids (ea ++ eb)) : ∃ pre post, ids = pre ++ post ∧ ea.length = pre.length := by
  have hlen := h.es_length
  rw [length_append] at hlen
  exact ⟨ids.take ea.length, ids.drop ea.length, (take_append_drop _ _).symm, by rw [length_take]; omega⟩

theorem passes (h : Layout maxLevel z (pre ++ post) (ea ++ eb)) (hea : ea.length = pre.length)
    (hbefore : ∀ a e b, ea = a ++ e :: b → pass (a.length + 1) e = true)
    (hbehind : ∀ a e b, eb = a ++ e :: b → pass (ea.length + a.length + 1) e = false) : Passes z pass pre post := by
  have helems := h.elems
  rw [map_append, map_append] at helems
  obtain ⟨hpre, hpost⟩ := append_inj helems (by rw [length_map, length_map, hea])
  -- the element of a node is at the same place among the elements
  have hplace : ∀ {l : List ℕ} {el : List α} {a b : List ℕ} {x : ℕ} {e : α}, l.map (fun x => (z.node x).elem) = el.map some → l = a ++ x :: b →
      (z.node x).elem = some e → ∃ ea' eb', el = ea' ++ e :: eb' ∧ ea'.length = a.length := by
    rintro l el a b x e hmap rfl he
    rw [map_append, map_cons] at hmap
    obtain ⟨ea', r, rfl, hea', hr⟩ := map_eq_append_iff.1 hmap.symm
    obtain ⟨e', eb', rfl, he', -⟩ := map_eq_cons_iff.1 hr
    rw [he] at he'
    refine ⟨ea', eb', by rw [Option.some.inj he'], ?_⟩
    have := congrArg List.length hea'
    rwa [length_map, length_map] at this
  constructor
  · intro a x b e hab he
    obtain ⟨ea', eb', hel, hlen⟩ := hplace hpre hab he
    rw [← hlen]
    exact hbefore ea' e eb' hel
  · intro a x b e hab he
    obtain ⟨ea', eb', hel, hlen⟩ := hplace hpost hab he
    rw [← hlen, ← hea]
    exact hbehind ea' e eb' hel

theorem passes_all {p : α → Bool} (h : Layout maxLevel z (pre ++ post) (ea ++ eb)) (hea : ea.length = pre.length)
    (hbefore : ∀ e ∈ ea, p e = true) (hbehind : ∀ e ∈ eb, p e = false) : Passes z (fun _ => p) pre post :=
  h.passes hea (fun a e _ hab => hbefore e (hab ▸ mem_append_right a mem_cons_self))
    fun a e _ hab => hbehind e (hab ▸ mem_append_right a mem_cons_self)

theorem passes_rank (h : Layout maxLevel z (pre ++ post) es) {p : ℕ → Bool} (hbefore : ∀ r, 1 ≤ r → r ≤ pre.length → p r = true)
    (hbehind : ∀ r, pre.length < r → p r = false) : Passes z (fun r _ => p r) pre post := by
  constructor
  · rintro a x b e rfl -
    refine hbefore _ (by omega) ?_
    rw [length_append, length_cons]
    omega
  · intro a x b e _ _
    exact hbehind _ (by omega)

theorem forward (h : Layout maxLevel z ids es) {a b : List ℕ} (hab : 0 :: ids = a ++ x :: b) : ((z.node x).level 0).forward = b.head? := by
  have hpos : ∀ w ∈ x :: b, 0 < z.height w := fun w hw => h.one_le_height (hab ▸ mem_append_right a hw)
  rw [h.links a x b hab 0 (hpos x mem_cons_self)]
  cases b with
  | nil => rfl
  | cons w b =>
    rw [link, if_pos (hpos w (mem_cons_of_mem x mem_cons_self))]
    rfl

theorem elem_behind {e : α} (h : Layout maxLevel z (pre ++ x :: post) (ea ++ e :: eb)) (hea : ea.length = pre.length) :
    (z.node x).elem = some e := by
  obtain ⟨ea', e', eb', hes, hlen, he⟩ := h.elem_at rfl
  have heq := append_inj hes (by rw [hea, hlen])
  rw [he, (List.cons.inj heq.2).1]

theorem last_elem (h : Layout maxLevel z ids es) : (z.tail = none ∧ es = []) ∨
    ∃ x ea e, z.tail = some x ∧ es = ea ++ [e] ∧ (z.node x).elem = some e := by
  rw [h.tail]
  rcases eq_nil_or_concat ids with rfl | ⟨a, x, rfl⟩
  · have hlen := h.es_length
    exact Or.inl ⟨rfl, length_eq_zero_iff.1 hlen.symm⟩
  · rw [concat_eq_append] at h
    obtain ⟨ea, e, eb, rfl, hea, he⟩ := h.elem_at rfl
    have hlen := h.es_length
    rw [length_append, length_append, hea, length_cons, length_cons] at hlen
    obtain rfl : eb = [] := length_eq_zero_iff.1 (by rw [length_nil] at hlen; omega)
    refine Or.inr ⟨x, ea, e, ?_, rfl, he⟩
    rw [concat_eq_append, List.getLast?_append, List.getLast?_singleton, some_or]

theorem first_elem {e : α} (h : Layout maxLevel z ids (e :: es)) : ∃ x l, ids = x :: l ∧ ((z.node 0).level 0).forward = some x ∧ (z.node x).elem = some e := by
  have hlen := h.es_length
  cases ids with
  | nil => cases hlen
  | cons x l =>
    have hfirst : ([] : List α).length = ([] : List ℕ).length := rfl
    exact ⟨x, l, rfl, h.forward (a := []) (b := x :: l) rfl, h.elem_behind hfirst⟩

end Layout

theorem Searched.forward {s : Found} (hs : Searched z pre s) (h : Layout maxLevel z (pre ++ post) es) : ((z.node s.x).level 0).forward = post.head? := by
  obtain ⟨a, ha⟩ := hs.last
  exact h.forward (a := a) (by rw [← cons_append, ha, append_assoc]; rfl)

end SkipList

end KVStores
