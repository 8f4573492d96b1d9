import Mathlib.Data.List.Basic

/-!
# Programs that write

A script makes one call of a writing function after the other, each of which may fail, and goes on as it sees fit. It may ask
for what it has written so far, say for a checksum. Each call is marked with whether its result is looked at.
-/

namespace KVStores

open List

variable {α β γ : Type}

inductive Script (β α : Type)
  | done (a : α)
  | write (b : β) (heeded : Bool) (next : Bool → Script β α)
  | written (next : List β → Script β α)

namespace Script

def bind : Script β α → (α → Script β γ) → Script β γ
  | done a, k => k a
  | write b heeded next, k => write b heeded fun ok => (next ok).bind k
  | written next, k => written fun h => (next h).bind k

instance : Monad (Script β) where
  pure := done
  bind := bind

/-- The result, and the calls with their outcomes; `ok i` is whether the call number `i` succeeds. -/
def run (ok : ℕ → Bool) : Script β α → List (β × Bool) → α × List (β × Bool)
  | done a, t => (a, t)
  | write b _ next, t => (next (ok t.length)).run ok (t ++ [(b, ok t.length)])
  | written next, t => (next (t.map Prod.fst)).run ok t

/-- The result when no call fails, and the calls, each with whether its result is looked at. -/
def plan : Script β α → List β → α × List (β × Bool)
  | done a, _ => (a, [])
  | write b heeded next, h => (((next true).plan (h ++ [b])).1, (b, heeded) :: ((next true).plan (h ++ [b])).2)
  | written next, h => (next h).plan h

/-- Some planned call fails, of those whose result is looked at or of the others; the first one has the number `i`. -/
@[grind =] def fails (heeded : Bool) (ok : ℕ → Bool) : ℕ → List (β × Bool) → Bool
  | _, [] => false
  | i, (_, x) :: p => (x == heeded && !ok i) || fails heeded ok (i + 1) p

@[grind =] def outcomes (ok : ℕ → Bool) : ℕ → List (β × Bool) → List (β × Bool)
  | _, [] => []
  | i, (b, _) :: p => (b, ok i) :: outcomes ok (i + 1) p

/-- The script ends with `bad` at a failure that it looks at, and does not see the others, all of which are of the kind `P`. -/
def Heedful (P : β → Prop) (bad : α) : Script β α → Prop
  | done _ => True
  | write b heeded next =>
    (if heeded = true then next false = done bad else next false = next true ∧ P b) ∧ (next true).Heedful P bad
  | written next => ∀ h, (next h).Heedful P bad

variable {P : β → Prop}

theorem Heedful.bind {bad : α} {bad' : γ} {k : α → Script β γ} (hbad : k bad = done bad') (hk : ∀ a, (k a).Heedful P bad') :
    ∀ {s : Script β α}, s.Heedful P bad → (s >>= k).Heedful P bad' := by
  intro s hs
  induction s with
  | done a => exact hk a
  | write b heeded next ih =>
    refine ⟨?_, ih true hs.2⟩
    cases heeded with
    | true =>
      have h1 : next false = done bad := hs.1
      change (next false).bind k = done bad'
      rw [h1]
      exact hbad
    | false =>
      have h1 : next false = next true ∧ P b := hs.1
      refine ⟨?_, h1.2⟩
      change (next false).bind k = (next true).bind k
      rw [h1.1]
  | written next ih => exact fun h => ih h (hs h)

/-- **A heedful script** ends with `bad` when a call that it looks at fails, and otherwise as if none had failed. -/
theorem run_heedful {bad : α} (ok : ℕ → Bool) : ∀ {s : Script β α} (t : List (β × Bool)), s.Heedful P bad →
    (fails true ok t.length (s.plan (t.map Prod.fst)).2 = true → (s.run ok t).1 = bad) ∧
    (fails true ok t.length (s.plan (t.map Prod.fst)).2 = false →
      s.run ok t = ((s.plan (t.map Prod.fst)).1, t ++ outcomes ok t.length (s.plan (t.map Prod.fst)).2)) := by
  intro s
  induction s with
  | done a =>
    intro t _
    refine ⟨fun h => absurd h Bool.false_ne_true, fun _ => ?_⟩
    rw [plan, outcomes, append_nil, run]
  | write b heeded next ih =>
    intro t hs
    have hnext := ih true (t ++ [(b, ok t.length)]) hs.2
    rw [map_append, map_singleton, length_append, length_singleton] at hnext
    rw [plan, run, fails, outcomes]
    by_cases hstop : heeded = true ∧ ok t.length = false
    · -- the failure is looked at
      have h1 : next false = done bad := by
        have h2 := hs.1
        rwa [if_pos hstop.1] at h2
      refine ⟨fun _ => ?_, fun h => ?_⟩
      · rw [hstop.2, h1, run]
      · rw [hstop.1, hstop.2] at h
        exact absurd h (by simp)
    · -- the call succeeds, or nobody looks
      have hsame : next (ok t.length) = next true := by
        cases hok : ok t.length with
        | true => rfl
        | false =>
          have h2 := hs.1
          rw [hok] at hstop
          rw [if_neg (by simpa using hstop)] at h2
          exact h2.1
      have hfront : (heeded == true && !ok t.length) = false := by
        cases heeded with
        | false => rfl
        | true =>
          cases hok : ok t.length with
          | true => rfl
          | false => exact absurd ⟨rfl, hok⟩ hstop
      rw [hsame, hfront, Bool.false_or]
      refine ⟨hnext.1, fun h => ?_⟩
      rw [hnext.2 h, append_assoc, singleton_append]
  | written next ih =>
    intro t hs
    exact ih (t.map Prod.fst) t (hs _)

theorem outcomes_ok (ok : ℕ → Bool) : ∀ (i : ℕ) (p : List (β × Bool)),
    (∀ x ∈ outcomes ok i p, x.2 = true) ↔ fails true ok i p = false ∧ fails false ok i p = false := by
  intro i p
  induction p generalizing i with
  | nil => simp [outcomes, fails]
  | cons x p ih =>
    obtain ⟨b, heeded⟩ := x
    rw [outcomes, fails, fails, forall_mem_cons, ih]
    cases heeded <;> cases ok i <;> simp

theorem outcomes_fst (ok : ℕ → Bool) : ∀ (i : ℕ) (p : List (β × Bool)), (outcomes ok i p).map Prod.fst = p.map Prod.fst := by
  intro i p
  induction p generalizing i with
  | nil => rfl
  | cons x p ih => rw [outcomes, map_cons, map_cons, ih]

end Script

end KVStores
