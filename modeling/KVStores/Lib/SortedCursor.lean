import KVStores.Lib.Cursor
import Mathlib.Order.Lattice

/-!
# Cursors in sorted lists

* `Iterator`, `Iterator.Follows`: an iterator that is somewhere in a sorted list; `Follows.run`: **after any calls that are
  allowed it is where a cursor is after these calls**.
-/

namespace KVStores

open List Option

namespace Cursor

variable {α K : Type} {l x y : List α} {p q : α → Bool} {c : Cursor α} {e : α} {b a : List α}

/-- The last element of those at the beginning of the list that have `p`. -/
def seekBack (p : α → Bool) (l : List α) : Cursor α := ofListsBack (l.takeWhile p).reverse (l.dropWhile p)

theorem takeWhile_of_cut (hx : ∀ e ∈ x, p e = true) (hy : ∀ e ∈ y, p e = false) : (x ++ y).takeWhile p = x ∧ (x ++ y).dropWhile p = y := by
  have hnil : y.takeWhile p = [] ∧ y.dropWhile p = y := by
    cases y with
    | nil => exact ⟨rfl, rfl⟩
    | cons e y =>
      have he := hy e mem_cons_self
      rw [takeWhile_cons, dropWhile_cons, he]
      exact ⟨rfl, rfl⟩
  rw [takeWhile_append_of_pos hx, dropWhile_append_of_pos hx, hnil.1, hnil.2, append_nil]
  exact ⟨rfl, rfl⟩

theorem seek_of_cut (hx : ∀ e ∈ x, p e = false) (hy : ∀ e ∈ y, p e = true) : seek p (x ++ y) = ofLists x.reverse y := by
  have h := takeWhile_of_cut (p := fun e => !p e) (fun e he => by rw [hx e he]; rfl) fun e he => by rw [hy e he]; rfl
  unfold seek
  rw [h.1, h.2]

theorem seekBack_of_cut (hx : ∀ e ∈ x, p e = true) (hy : ∀ e ∈ y, p e = false) : seekBack p (x ++ y) = ofListsBack x.reverse y := by
  have h := takeWhile_of_cut hx hy
  unfold seekBack
  rw [h.1, h.2]

theorem in_seekBack (p : α → Bool) (l : List α) : In l (seekBack p l) :=
  in_ofListsBack (by rw [reverse_reverse, takeWhile_append_dropWhile])

theorem seek_congr : ∀ {l : List α}, (∀ e ∈ l, p e = q e) → seek p l = seek q l := by
  have h : ∀ {l : List α}, (∀ e ∈ l, p e = q e) →
      (l.takeWhile fun e => !p e) = (l.takeWhile fun e => !q e) ∧ (l.dropWhile fun e => !p e) = l.dropWhile fun e => !q e := by
    intro l h
    induction l with
    | nil => exact ⟨rfl, rfl⟩
    | cons e l ih =>
      obtain ⟨he, hl⟩ := forall_mem_cons.1 h
      obtain ⟨h1, h2⟩ := ih hl
      simp only [takeWhile_cons, dropWhile_cons, he, h1, h2]
      exact ⟨trivial, trivial⟩
  intro l hl
  unfold seek
  rw [(h hl).1, (h hl).2]

theorem seekBack_congr (h : ∀ e ∈ l, p e = q e) : seekBack p l = seekBack q l := by
  have h' : (l.takeWhile p) = l.takeWhile q ∧ l.dropWhile p = l.dropWhile q := by
    induction l with
    | nil => exact ⟨rfl, rfl⟩
    | cons e l ih =>
      obtain ⟨he, hl⟩ := forall_mem_cons.1 h
      obtain ⟨h1, h2⟩ := ih hl
      simp only [takeWhile_cons, dropWhile_cons, he, h1, h2]
      exact ⟨trivial, trivial⟩
  unfold seekBack
  rw [h'.1, h'.2]

theorem seekToFirst_eq (l : List α) : seekToFirst l = seek (fun _ => true) l :=
  (seek_of_cut (x := []) (fun _ he => absurd he not_mem_nil) fun _ _ => rfl).symm

theorem seekToLast_eq (l : List α) : seekToLast l = seekBack (fun _ => true) l := by
  have h := seekBack_of_cut (p := fun _ => true) (x := l) (y := []) (fun _ _ => rfl) fun _ he => absurd he not_mem_nil
  rw [append_nil] at h
  exact h.symm

theorem current_ofLists : (ofLists b a).current = a.head? := by
  cases a <;> rfl

theorem current_ofListsBack : (ofListsBack b a).current = b.head? := by
  cases b <;> rfl

theorem current_eq_none : c.current = none ↔ c = none := by
  cases c <;> simp [current]

variable [LinearOrder K] {key : α → K}

def Sorted (key : α → K) (l : List α) : Prop := l.Pairwise fun a b => key a < key b

theorem Sorted.eq_of_key (h : Sorted key l) {e e' : α} (he : e ∈ l) (he' : e' ∈ l) (hk : key e = key e') : e = e' := by
  obtain ⟨i, hi, rfl⟩ := getElem_of_mem he
  obtain ⟨j, hj, rfl⟩ := getElem_of_mem he'
  have hlt := pairwise_iff_getElem.1 h
  rcases Nat.lt_trichotomy i j with hij | rfl | hij
  · exact absurd hk (ne_of_lt (hlt i j hi hj hij))
  · rfl
  · exact absurd hk.symm (ne_of_lt (hlt j i hj hi hij))

theorem Sorted.cut (h : Sorted key l) (hp : ∀ e ∈ l, ∀ e' ∈ l, key e ≤ key e' → p e = true → p e' = true) :
    ∃ x y, l = x ++ y ∧ (∀ e ∈ x, p e = false) ∧ ∀ e ∈ y, p e = true := by
  induction l with
  | nil => exact ⟨[], [], rfl, fun _ he => absurd he not_mem_nil, fun _ he => absurd he not_mem_nil⟩
  | cons e l ih =>
    obtain ⟨hlt, hs⟩ := pairwise_cons.1 h
    cases he : p e with
    | true =>
      refine ⟨[], e :: l, rfl, fun _ he => absurd he not_mem_nil, fun e' he' => ?_⟩
      rcases mem_cons.1 he' with rfl | hmem
      · exact he
      · exact hp e mem_cons_self e' he' (le_of_lt (hlt e' hmem)) he
    | false =>
      obtain ⟨x, y, rfl, hx, hy⟩ := ih hs fun e1 h1 e2 h2 => hp e1 (mem_cons_of_mem _ h1) e2 (mem_cons_of_mem _ h2)
      exact ⟨e :: x, y, rfl, forall_mem_cons.2 ⟨he, hx⟩, hy⟩

theorem Sorted.around (h : Sorted key (b.reverse ++ e :: a)) : (∀ x ∈ b.reverse, key x < key e) ∧ ∀ x ∈ a, key e < key x := by
  obtain ⟨-, h2, h3⟩ := pairwise_append.1 h
  exact ⟨fun x hx => h3 x hx e mem_cons_self, (pairwise_cons.1 h2).1⟩

theorem next_eq_seek (h : Sorted key l) (hin : In l (some (b, e, a))) : next (some (b, e, a)) = seek (fun x => decide (key e < key x)) l := by
  obtain rfl : b.reverse ++ e :: a = l := hin
  obtain ⟨hb, ha⟩ := h.around
  rw [append_cons, seek_of_cut (fun x hx => ?_) fun x hx => decide_eq_true (ha x hx), reverse_append, reverse_reverse]
  · rfl
  · rcases mem_append.1 hx with hx | hx
    · exact decide_eq_false (not_lt.2 (le_of_lt (hb x hx)))
    · rw [mem_singleton.1 hx]
      exact decide_eq_false (lt_irrefl _)

theorem prev_eq_seekBack (h : Sorted key l) (hin : In l (some (b, e, a))) :
    prev (some (b, e, a)) = seekBack (fun x => decide (key x < key e)) l := by
  obtain rfl : b.reverse ++ e :: a = l := hin
  obtain ⟨hb, ha⟩ := h.around
  rw [seekBack_of_cut (fun x hx => decide_eq_true (hb x hx)) fun x hx => ?_, reverse_reverse]
  · rfl
  · rcases mem_cons.1 hx with rfl | hx
    · exact decide_eq_false (lt_irrefl _)
    · exact decide_eq_false (not_lt.2 (le_of_lt (ha x hx)))

/-- From the first element that is not before a key, one step back leads to the last element before it. When there is none, the
last element of all is before it. -/
theorem seek_back (h : Sorted key l) (k : K) :
    (seek (fun x => decide (k ≤ key x)) l ≠ none → prev (seek (fun x => decide (k ≤ key x)) l) = seekBack (fun x => decide (key x < k)) l) ∧
    (seek (fun x => decide (k ≤ key x)) l = none → seekToLast l = seekBack (fun x => decide (key x < k)) l) := by
  obtain ⟨x, y, rfl, hx, hy⟩ := h.cut (p := fun x => decide (k ≤ key x)) fun e _ e' _ hle he =>
    decide_eq_true (le_trans (of_decide_eq_true he) hle)
  rw [seek_of_cut hx hy, seekBack_of_cut (p := fun x => decide (key x < k))
    (fun e he => decide_eq_true (not_le.1 (of_decide_eq_false (hx e he))))
    fun e he => decide_eq_false (not_lt.2 (of_decide_eq_true (hy e he)))]
  cases y with
  | nil =>
    refine ⟨fun hne => absurd rfl hne, fun _ => ?_⟩
    rw [append_nil]
    rfl
  | cons e y => exact ⟨fun _ => rfl, fun hnone => absurd hnone (some_ne_none _)⟩

theorem current_seek (h : Sorted key l) (hp : ∀ e ∈ l, ∀ e' ∈ l, key e ≤ key e' → p e = true → p e' = true) :
    (seek p l).current = some e ↔ e ∈ l ∧ p e = true ∧ ∀ x ∈ l, p x = true → key e ≤ key x := by
  obtain ⟨x, y, rfl, hx, hy⟩ := h.cut hp
  rw [seek_of_cut hx hy, current_ofLists]
  cases y with
  | nil =>
    rw [append_nil]
    refine ⟨fun h => (by cases h), fun ⟨he, hpe, _⟩ => ?_⟩
    rw [hx e he] at hpe
    cases hpe
  | cons e' y =>
    have hmem : e' ∈ x ++ e' :: y := mem_append_right _ mem_cons_self
    have hfirst : ∀ e2 ∈ x ++ e' :: y, p e2 = true → key e' ≤ key e2 := by
      intro e2 he2 hp2
      rcases mem_append.1 he2 with he2 | he2
      · rw [hx e2 he2] at hp2
        cases hp2
      · rcases mem_cons.1 he2 with rfl | he2
        · exact le_rfl
        · exact le_of_lt ((pairwise_cons.1 (pairwise_append.1 h).2.1).1 e2 he2)
    rw [List.head?_cons, Option.some.injEq]
    constructor
    · rintro rfl
      exact ⟨hmem, hy e' mem_cons_self, hfirst⟩
    · rintro ⟨he, hpe, hle⟩
      exact (h.eq_of_key he hmem (le_antisymm (hle e' hmem (hy e' mem_cons_self)) (hfirst e he hpe))).symm

theorem current_seekBack (h : Sorted key l) (hp : ∀ e ∈ l, ∀ e' ∈ l, key e ≤ key e' → p e' = true → p e = true) :
    (seekBack p l).current = some e ↔ e ∈ l ∧ p e = true ∧ ∀ x ∈ l, p x = true → key x ≤ key e := by
  obtain ⟨x, y, rfl, hx, hy⟩ := h.cut (p := fun e => !p e) fun e he e' he' hle hpe => by
    cases hpe' : p e' with
    | false => rfl
    | true =>
      rw [hp e he e' he' hle hpe'] at hpe
      cases hpe
  have hx' : ∀ e ∈ x, p e = true := fun e he => by simpa using hx e he
  have hy' : ∀ e ∈ y, p e = false := fun e he => by simpa using hy e he
  rw [seekBack_of_cut hx' hy', current_ofListsBack]
  rcases eq_nil_or_concat x with rfl | ⟨x, e', rfl⟩
  · refine ⟨fun h => (by cases h), fun ⟨he, hpe, _⟩ => ?_⟩
    rw [hy' e he] at hpe
    cases hpe
  · rw [concat_eq_append] at *
    have hmem : e' ∈ x ++ [e'] ++ y := mem_append_left _ (mem_append_right _ mem_cons_self)
    have hlast : ∀ e2 ∈ x ++ [e'] ++ y, p e2 = true → key e2 ≤ key e' := by
      intro e2 he2 hp2
      rcases mem_append.1 he2 with he2 | he2
      · rcases mem_append.1 he2 with he2 | he2
        · exact le_of_lt ((pairwise_append.1 (pairwise_append.1 h).1).2.2 e2 he2 e' mem_cons_self)
        · rw [mem_singleton.1 he2]
      · rw [hy' e2 he2] at hp2
        cases hp2
    have hpe' := hx' e' (mem_append_right _ mem_cons_self)
    rw [reverse_append, reverse_singleton, singleton_append, List.head?_cons, Option.some.injEq]
    constructor
    · rintro rfl
      exact ⟨hmem, hpe', hlast⟩
    · rintro ⟨he, hpe, hle⟩
      exact (h.eq_of_key he hmem (le_antisymm (hlast e he hpe) (hle e' hmem hpe'))).symm

theorem mem_of_current (hin : In l c) (hc : c.current = some e) : e ∈ l := by
  cases c with
  | none => cases hc
  | some t =>
    obtain ⟨b, e', a⟩ := t
    obtain rfl := Option.some.inj hc
    obtain rfl : b.reverse ++ e' :: a = l := hin
    exact mem_append_right _ mem_cons_self

theorem seek_ne_none (he : e ∈ l) (hp : p e = true) : seek p l ≠ none := by
  unfold seek
  rw [Ne, ofLists_eq_none, dropWhile_eq_nil_iff]
  intro hall
  have := hall e he
  rw [hp] at this
  cases this

theorem seekBack_ne_none (h : Sorted key l) (hp : ∀ e ∈ l, ∀ e' ∈ l, key e ≤ key e' → p e' = true → p e = true) (he : e ∈ l)
    (hpe : p e = true) : seekBack p l ≠ none := by
  intro hnone
  cases l with
  | nil => exact absurd he not_mem_nil
  | cons e' l =>
    have hhead : p e' = true := by
      rcases mem_cons.1 he with rfl | hmem
      · exact hpe
      · exact hp e' mem_cons_self e he (le_of_lt ((pairwise_cons.1 h).1 e hmem)) hpe
    unfold seekBack at hnone
    rw [takeWhile_cons, hhead, if_pos rfl, reverse_cons] at hnone
    generalize (l.takeWhile p).reverse = r at hnone
    cases r <;> cases hnone

end Cursor

inductive Move (K : Type)
  | seekToFirst
  | seekToLast
  | seek (target : K)
  | next
  | prev

def Move.Allowed {K : Type} (valid : Prop) : Move K → Prop
  | .next => valid
  | .prev => valid
  | _ => True

instance {K : Type} (valid : Prop) [inst : Decidable valid] : (m : Move K) → Decidable (m.Allowed valid)
  | .next => inst
  | .prev => inst
  | .seekToFirst => .isTrue trivial
  | .seekToLast => .isTrue trivial
  | .seek _ => .isTrue trivial

theorem Move.Allowed.imp {K : Type} {m : Move K} {p q : Prop} (h : m.Allowed p) (hpq : p → q) : m.Allowed q := by
  cases m with
  | next => exact hpq h
  | prev => exact hpq h
  | _ => exact trivial

def Cursor.move {α K : Type} [LinearOrder K] (key : α → K) (l : List α) (c : Cursor α) : Move K → Cursor α
  | .seekToFirst => Cursor.seekToFirst l
  | .seekToLast => Cursor.seekToLast l
  | .seek target => Cursor.seek (fun e => decide (target ≤ key e)) l
  | .next => c.next
  | .prev => c.prev

def Cursor.run {α K : Type} [LinearOrder K] (key : α → K) (l : List α) (moves : List (Move K)) : Cursor α :=
  moves.foldl (fun c m => Cursor.move key l c m) none

/-- An iterator with states `σ`: whether it is somewhere, the element it is at, and what a call makes of it. -/
structure Iterator (σ α K : Type) where
  valid : σ → Bool
  current : σ → Option α
  call : σ → Move K → σ

namespace Iterator

variable {σ α K : Type} [LinearOrder K] {key : α → K} {l : List α} {R : σ → Cursor α → Prop} {it : Iterator σ α K}

/-- In states and cursors that go together the iterator is where the cursor is, and calls keep them together. -/
structure Follows (it : Iterator σ α K) (key : α → K) (l : List α) (R : σ → Cursor α → Prop) : Prop where
  valid : ∀ {s c}, R s c → (it.valid s = true ↔ c ≠ none)
  current : ∀ {s c}, R s c → it.current s = c.current
  within : ∀ {s c}, R s c → c.In l
  call : ∀ {s c} (m : Move K), R s c → m.Allowed (c ≠ none) → R (it.call s m) (c.move key l m)

@[grind =] def AllowedRun (it : Iterator σ α K) : σ → List (Move K) → Prop
  | _, [] => True
  | s, m :: moves => m.Allowed (it.valid s = true) ∧ it.AllowedRun (it.call s m) moves

/-- **After calls that are allowed the iterator is where a cursor is after these calls.** -/
theorem Follows.run (h : it.Follows key l R) : ∀ (moves : List (Move K)) {s : σ} {c : Cursor α}, R s c → it.AllowedRun s moves →
    R (moves.foldl it.call s) (moves.foldl (fun c m => c.move key l m) c)
  | [], _, _, hr, _ => hr
  | m :: moves, _, _, hr, ⟨hm, hrest⟩ => h.run moves (h.call m hr (hm.imp (h.valid hr).1)) hrest

end Iterator

namespace Cursor

variable {α K : Type} [LinearOrder K] {key : α → K} {c : Cursor α}

theorem In.move {l : List α} (h : In l c) (m : Move K) : In l (c.move key l m) := by
  cases m with
  | seekToFirst => exact in_seekToFirst l
  | seekToLast => exact in_seekToLast l
  | seek target => exact in_seek _ l
  | next => exact h.next
  | prev => exact h.prev

def iterator (key : α → K) : Iterator (List α × Cursor α) α K :=
  ⟨fun s => s.2.isSome, fun s => s.2.current, fun s m => (s.1, move key s.1 s.2 m)⟩

theorem iterator_follows (l : List α) : (iterator key).Follows key l fun s c => s = (l, c) ∧ In l c := by
  refine ⟨?_, ?_, fun h => h.2, fun m h _ => ?_⟩
  · rintro s c ⟨rfl, -⟩
    exact isSome_iff_ne_none
  · rintro s c ⟨rfl, -⟩
    rfl
  · obtain ⟨rfl, hin⟩ := h
    exact ⟨rfl, hin.move m⟩

end Cursor

end KVStores
