import Mathlib.Data.List.Basic

/-!
# Drafts

A draft is a text in the making: items, and places that are reserved and filled in later. A place is known by a name.
-/

namespace KVStores

open List

variable {α ι : Type}

inductive Piece (α ι : Type)
  | item (a : α)
  | hole (i : ι)
deriving DecidableEq

abbrev Draft (α ι : Type) := List (Piece α ι)

namespace Draft

def solid (s : List α) : Draft α ι := s.map Piece.item

def name : Piece α ι → Option ι
  | .item _ => none
  | .hole i => some i

def holes (d : Draft α ι) : List ι := d.filterMap name

section Fill

variable [DecidableEq ι]

/-- A text is put in the place `i`. -/
def fill (i : ι) (s : List α) (d : Draft α ι) : Draft α ι := d.flatMap fun p => if name p = some i then solid s else [p]

variable {i : ι} {s t : List α} {d e : Draft α ι}

theorem fill_append (i : ι) (s : List α) (d e : Draft α ι) : fill i s (d ++ e) = fill i s d ++ fill i s e := flatMap_append

theorem fill_hole (i : ι) (s : List α) : fill i s [Piece.hole i] = solid s := by
  simp [fill, name]

theorem fill_absent : ∀ {d : Draft α ι}, i ∉ holes d → fill i s d = d := by
  intro d
  induction d with
  | nil =>
    intro _
    rfl
  | cons p d ih =>
    intro h
    rw [← singleton_append, fill_append]
    cases p with
    | item a =>
      have hd : i ∉ holes d := fun hd => h (by simpa [holes, name] using hd)
      rw [ih hd]
      simp [fill, name]
    | hole j =>
      have hij : i ≠ j := fun hij => h (by simp [holes, name, hij])
      have hd : i ∉ holes d := fun hd => h (by simpa [holes, name] using Or.inr hd)
      rw [ih hd]
      simp [fill, name, Ne.symm hij]

end Fill

variable {s t : List α} {d e : Draft α ι}

@[simp] theorem solid_nil : (solid [] : Draft α ι) = [] := rfl

theorem solid_append (s t : List α) : (solid (s ++ t) : Draft α ι) = solid s ++ solid t := map_append

@[simp] theorem length_solid (s : List α) : (solid s : Draft α ι).length = s.length := length_map _

@[simp] theorem holes_solid (s : List α) : holes (solid s : Draft α ι) = [] := by
  rw [holes, solid, filterMap_map, filterMap_eq_nil_iff]
  intro a _
  rfl

@[simp] theorem holes_append (d e : Draft α ι) : holes (d ++ e) = holes d ++ holes e := filterMap_append

theorem solid_injective : Function.Injective (solid : List α → Draft α ι) := by
  intro s t h
  exact map_injective_iff.2 (fun _ _ h => Piece.item.inj h) h

/-- A text in front of a draft that starts with another text, no longer than it, is where that text starts. -/
theorem solid_take {t : List α} (h : solid s ++ d = solid t ++ e) (hle : s.length ≤ t.length) : s = t.take s.length ∧ d = solid (t.drop s.length) ++ e := by
  have hcut : (solid t : Draft α ι) = solid (t.take s.length) ++ solid (t.drop s.length) := by
    rw [← solid_append, take_append_drop]
  rw [hcut, append_assoc] at h
  have hlen : (solid s : Draft α ι).length = (solid (t.take s.length) : Draft α ι).length := by
    simp only [length_solid, length_take]
    omega
  obtain ⟨h1, h2⟩ := append_inj h hlen
  exact ⟨solid_injective h1, h2⟩

end Draft

end KVStores
