import Mathlib.Data.List.Basic
import Mathlib.Data.List.TakeWhile

/-!
# Cursors

A cursor is a position in a list, or outside of it. What an iterator over sorted contents is
meant to be.
-/

namespace KVStores

open List

/-- A position in a list: what is before it, the nearest element first, the element there, and
what is behind it. -/
abbrev Cursor (α : Type) := Option (List α × α × List α)

namespace Cursor

variable {α β : Type}

def current : Cursor α → Option α
  | none => none
  | some (_, a, _) => some a

/-- In front of `rest`. -/
def ofLists (before rest : List α) : Cursor α :=
  match rest with
  | [] => none
  | a :: after => some (before, a, after)

/-- Behind `before`. -/
def ofListsBack (before rest : List α) : Cursor α :=
  match before with
  | [] => none
  | a :: before => some (before, a, rest)

def seekToFirst (l : List α) : Cursor α := ofLists [] l

def seekToLast (l : List α) : Cursor α := ofListsBack l.reverse []

/-- The first element with `p`. -/
def seek (p : α → Bool) (l : List α) : Cursor α := ofLists (l.takeWhile fun a => !p a).reverse (l.dropWhile fun a => !p a)

def next : Cursor α → Cursor α
  | none => none
  | some (before, a, after) => ofLists (a :: before) after

def prev : Cursor α → Cursor α
  | none => none
  | some (before, a, after) => ofListsBack before (a :: after)

/-- The cursor is in `l`, or outside. -/
def In (l : List α) : Cursor α → Prop
  | none => True
  | some (before, a, after) => before.reverse ++ a :: after = l

variable {l : List α} {before rest : List α} {c : Cursor α}

theorem in_ofLists (h : before.reverse ++ rest = l) : In l (ofLists before rest) := by
  cases rest with
  | nil => exact trivial
  | cons a after => exact h

theorem in_ofListsBack (h : before.reverse ++ rest = l) : In l (ofListsBack before rest) := by
  cases before with
  | nil => exact trivial
  | cons a before => rwa [reverse_cons, append_assoc] at h

theorem in_seekToFirst (l : List α) : In l (seekToFirst l) := in_ofLists (nil_append l)

theorem in_seekToLast (l : List α) : In l (seekToLast l) := in_ofListsBack (by rw [reverse_reverse, append_nil])

theorem in_seek (p : α → Bool) (l : List α) : In l (seek p l) :=
  in_ofLists (by rw [reverse_reverse, takeWhile_append_dropWhile])

theorem In.next (h : In l c) : In l c.next := by
  cases c with
  | none => exact trivial
  | some p =>
    apply in_ofLists
    rw [reverse_cons, append_assoc]
    exact h

theorem In.prev (h : In l c) : In l c.prev := by
  cases c with
  | none => exact trivial
  | some p =>
    exact in_ofListsBack h

theorem ofLists_eq_none : ofLists before rest = none ↔ rest = [] := by
  cases rest <;> simp [ofLists]

end Cursor

/-- `for (; valid; step)`: what the loop comes upon; `none` when it has not ended. -/
@[grind =] def walk {σ α : Type} (valid : σ → Bool) (current : σ → Option α) (step : σ → σ) : ℕ → σ → Option (List α)
  | 0, _ => none
  | fuel + 1, s =>
    if valid s = true then (current s).bind fun e => (walk valid current step fuel (step s)).map (e :: ·) else some []

/-- **A loop comes upon what is in front of it**, when each step leaves the rest of that in front. -/
theorem walk_eq {σ α : Type} {valid : σ → Bool} {current : σ → Option α} {step : σ → σ} {P : List α → σ → Prop}
    (hnil : ∀ s, P [] s → valid s = false)
    (hcons : ∀ e l s, P (e :: l) s → valid s = true ∧ current s = some e ∧ P l (step s)) :
    ∀ {l : List α} {s : σ} {fuel : ℕ}, P l s → l.length < fuel → walk valid current step fuel s = some l := by
  intro l
  induction l with
  | nil =>
    intro s fuel hs hfuel
    obtain ⟨fuel, rfl⟩ := Nat.exists_eq_add_one_of_ne_zero (Nat.ne_of_gt hfuel)
    rw [walk, if_neg (by rw [hnil s hs]; exact Bool.false_ne_true)]
  | cons e l ih =>
    intro s fuel hs hfuel
    obtain ⟨fuel, rfl⟩ := Nat.exists_eq_add_one_of_ne_zero (Nat.ne_of_gt (Nat.zero_lt_of_lt hfuel))
    obtain ⟨hvalid, hcurrent, hstep⟩ := hcons e l s hs
    rw [walk, if_pos hvalid, hcurrent, Option.bind_some, ih hstep (Nat.succ_lt_succ_iff.1 hfuel), Option.map_some]

end KVStores
