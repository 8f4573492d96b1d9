import Mathlib.Logic.Basic

/-!
# Outcomes of code that may fail

A piece of C code is modelled as a value of `Option`: `none` is a run that does not
return (a null or freed pointer is read, `exit`, `abort`). `Meets F x Q` says that
`x` returns a value with `Q`, where `F` tells whether `x` is allowed not to return:
with `F := False` it is total correctness, with `F := True` partial correctness.
One proof covers both, so what is shown of code over an arbitrary store holds of a
store whose operations always succeed and of one whose operations may be refused.
-/

namespace KVStores

variable {α β : Type} {F : Prop} {P Q : α → Prop} {R : β → Prop}

/-- `x` returns a value with `Q`, or `F` allows that it does not return. -/
def Meets (F : Prop) (x : Option α) (Q : α → Prop) : Prop :=
  match x with
  | some a => Q a
  | none => F

variable {a : α}

@[simp] theorem meets_some : Meets F (some a) Q ↔ Q a := Iff.rfl

theorem Meets.pure (h : Q a) : Meets F (Pure.pure a : Option α) Q := h

variable {x : Option α}

theorem Meets.mono (h : Meets F x P) (hPQ : ∀ a, P a → Q a) : Meets F x Q := by
  cases x with
  | none => exact h
  | some a => exact hPQ a h

@[simp] theorem meets_map {f : α → β} : Meets F (x.map f) R ↔ Meets F x fun a => R (f a) := by
  cases x <;> rfl

variable {f : α → Option β}

theorem Meets.bind (h : Meets F x P) (hf : ∀ a, P a → Meets F (f a) R) : Meets F (x >>= f) R := by
  cases x with
  | none => exact h
  | some a => exact hf a h

theorem Meets.bind_eq (h : x = some a) (hf : Meets F (f a) R) : Meets F (x >>= f) R := by subst h; exact hf

theorem Meets.bind_inv {b : β} (h : Meets F x P) (hx : x >>= f = some b) : ∃ a, P a ∧ f a = some b := by
  cases x with
  | none => exact absurd hx nofun
  | some a => exact ⟨a, h, hx⟩

theorem Meets.returns (h : Meets False x Q) : ∃ a, x = some a ∧ Q a := by
  cases x with
  | none => exact h.elim
  | some a => exact ⟨a, rfl, h⟩

theorem Meets.of_eq (h : Meets F x Q) (hx : x = some a) : Q a := by
  subst hx; exact h

end KVStores
