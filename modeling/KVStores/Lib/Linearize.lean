import Mathlib.Data.List.Infix
import Mathlib.Data.List.Perm.Subperm

/-!
# Operations that take effect one at a time

Several clients use an object at once. Each calls one operation after the other, and an operation takes effect at one moment
between its call and its answer, which nobody sees.

* `Linearizable`: a history is explained by an order of the operations, each made whole by `serve`. At each moment of the
  history a first part of the order has taken effect: it has every operation that is answered by then, and none that
  is not called yet.
* `linearizable_of_refines`: **a system whose steps are steps of the object, or none, has only such histories.**
-/

namespace KVStores.Linearize

open List Option Function

variable {Client Op Reply Store : Type}

inductive Phase (Op Reply : Type)
  | idle
  | pending (op : Op)
  | done (op : Op) (reply : Reply)

inductive Event (Client Op Reply : Type)
  | call (c : Client) (op : Op)
  | answer (c : Client) (op : Op) (reply : Reply)
deriving DecidableEq

structure State (Client Op Reply Store : Type) where
  store : Store
  phase : Client → Phase Op Reply

@[grind =] def Serial (serve : Op → Store → Reply × Store) : Store → List (Client × Op × Reply) → Store → Prop
  | d, [], d' => d' = d
  | d, (_, op, reply) :: order, d' => (serve op d).1 = reply ∧ Serial serve (serve op d).2 order d'

def Event.answered : Event Client Op Reply → Option (Client × Op × Reply)
  | .call .. => none
  | .answer c op reply => some (c, op, reply)

def Event.called : Event Client Op Reply → Option (Client × Op)
  | .call c op => some (c, op)
  | .answer .. => none

section

variable [DecidableEq Client]

def own {α : Type} (c : Client) (l : List (Client × α)) : List α := l.filterMap fun p => if p.1 = c then some p.2 else none

theorem own_append {α : Type} (c : Client) (l l' : List (Client × α)) : own c (l ++ l') = own c l ++ own c l' := filterMap_append

theorem own_self {α : Type} (c : Client) (a : α) : own c [(c, a)] = [a] := by
  simp only [own, filterMap_cons, if_pos, filterMap_nil]

theorem own_other {α : Type} {c c' : Client} (h : c' ≠ c) (a : α) : own c [(c', a)] = [] := by
  simp only [own, filterMap_cons, if_neg h, filterMap_nil]

/-- A first part of the order that can have taken effect by the end of the history. -/
def Within (h : List (Event Client Op Reply)) (order : List (Client × Op × Reply)) : Prop :=
  ∀ c, own c (h.filterMap Event.answered) <+: own c order ∧ (own c order).map Prod.fst <+: own c (h.filterMap Event.called)

/-- The history and the last value are those of some order of the operations. -/
def Linearizable (serve : Op → Store → Reply × Store) (d : Store) (h : List (Event Client Op Reply)) (d' : Store) : Prop :=
  ∃ order : List (Client × Op × Reply), Serial serve d order d' ∧ Within h order ∧
    ∀ h', h' <+: h → ∃ order', order' <+: order ∧ Within h' order'

/-- A step of the object with its clients: what can be seen of it, if anything. -/
inductive Step (serve : Op → Store → Reply × Store) :
    State Client Op Reply Store → Option (Event Client Op Reply) → State Client Op Reply Store → Prop
  | call {s : State Client Op Reply Store} {c : Client} {op : Op} : s.phase c = .idle →
      Step serve s (some (.call c op)) ⟨s.store, Function.update s.phase c (.pending op)⟩
  | effect {s : State Client Op Reply Store} {c : Client} {op : Op} : s.phase c = .pending op →
      Step serve s none ⟨(serve op s.store).2, Function.update s.phase c (.done op (serve op s.store).1)⟩
  | answer {s : State Client Op Reply Store} {c : Client} {op : Op} {reply : Reply} : s.phase c = .done op reply →
      Step serve s (some (.answer c op reply)) ⟨s.store, Function.update s.phase c .idle⟩

end

def Phase.owed : Phase Op Reply → List (Op × Reply)
  | .done op reply => [(op, reply)]
  | _ => []

def Phase.waiting : Phase Op Reply → List Op
  | .pending op => [op]
  | _ => []

section

variable [DecidableEq Client] {serve : Op → Store → Reply × Store} {d : Store} {h : List (Event Client Op Reply)}
  {s s' : State Client Op Reply Store} {order : List (Client × Op × Reply)}

/-- The order accounts for what is seen so far and for what the clients are at. -/
structure Explains (serve : Op → Store → Reply × Store) (d : Store) (h : List (Event Client Op Reply))
    (s : State Client Op Reply Store) (order : List (Client × Op × Reply)) : Prop where
  serial : Serial serve d order s.store
  answered : ∀ c, own c order = own c (h.filterMap Event.answered) ++ (s.phase c).owed
  called : ∀ c, own c (h.filterMap Event.called) = (own c order).map Prod.fst ++ (s.phase c).waiting
  moments : ∀ h', h' <+: h → ∃ order', order' <+: order ∧ Within h' order'

theorem Explains.within (he : Explains serve d h s order) : Within h order := by
  intro c
  rw [he.answered c, he.called c, he.answered c]
  exact ⟨prefix_append _ _, prefix_append _ _⟩

theorem Explains.linearizable (he : Explains serve d h s order) : Linearizable serve d h s.store :=
  ⟨order, he.serial, he.within, he.moments⟩

theorem explains_start (serve : Op → Store → Reply × Store) (d : Store) :
    Explains serve d ([] : List (Event Client Op Reply)) ⟨d, fun _ => .idle⟩ [] := by
  refine ⟨rfl, fun _ => rfl, fun _ => rfl, ?_⟩
  intro h' hh'
  rw [prefix_nil.1 hh']
  exact ⟨[], prefix_rfl, fun _ => ⟨prefix_rfl, prefix_rfl⟩⟩

omit [DecidableEq Client] in
theorem serial_concat {c : Client} {op : Op} : ∀ {order : List (Client × Op × Reply)} {d d' : Store}, Serial serve d order d' →
    Serial serve d (order ++ [(c, op, (serve op d').1)]) (serve op d').2 := by
  intro order
  induction order with
  | nil =>
    rintro d d' rfl
    exact ⟨rfl, rfl⟩
  | cons p order ih =>
    rintro d d' ⟨hreply, hrest⟩
    exact ⟨hreply, ih hrest⟩

theorem moments_concat {e : Event Client Op Reply} (hmoments : ∀ h', h' <+: h → ∃ order', order' <+: order ∧ Within h' order')
    (hwithin : Within (h ++ [e]) order) : ∀ h', h' <+: h ++ [e] → ∃ order', order' <+: order ∧ Within h' order' := by
  intro h' hh'
  rcases prefix_concat_iff.1 hh' with rfl | hh'
  · exact ⟨order, prefix_rfl, hwithin⟩
  · exact hmoments h' hh'

/-- **One step**: an operation that takes effect is the next one of the order. -/
theorem Explains.step {e : Option (Event Client Op Reply)} (he : Explains serve d h s order) (hstep : Step serve s e s') :
    ∃ order', Explains serve d (h ++ e.toList) s' order' := by
  cases hstep with
  | @call c op hidle =>
    have hanswered : ∀ c', own c' ((h ++ [Event.call c op]).filterMap Event.answered) = own c' (h.filterMap Event.answered) := by
      intro c'
      rw [filterMap_append, own_append]
      exact append_nil _
    have hcalled : ∀ c', own c' ((h ++ [Event.call c op]).filterMap Event.called) =
        (own c' order).map Prod.fst ++ (Function.update s.phase c (.pending op) c').waiting := by
      intro c'
      rw [filterMap_append, own_append, he.called c']
      by_cases hc : c' = c
      · subst hc
        have hself : own c' ([Event.call c' op].filterMap (@Event.called Client Op Reply)) = [op] := own_self c' op
        rw [update_self, hidle, hself, append_assoc]
        rfl
      · have hother : own c' ([Event.call c op].filterMap (@Event.called Client Op Reply)) = [] := own_other (Ne.symm hc) op
        rw [update_of_ne hc, hother, append_nil]
    have howed : ∀ c', own c' order = own c' ((h ++ [Event.call c op]).filterMap Event.answered) ++
        (Function.update s.phase c (.pending op) c').owed := by
      intro c'
      rw [hanswered, he.answered c']
      by_cases hc : c' = c
      · subst hc
        rw [update_self, hidle]
        rfl
      · rw [update_of_ne hc]
    refine ⟨order, he.serial, howed, hcalled, moments_concat he.moments ?_⟩
    intro c'
    rw [hanswered, hcalled, he.answered c']
    exact ⟨prefix_append _ _, prefix_append _ _⟩
  | @effect c op hpending =>
    have hown : ∀ c', own c' (order ++ [(c, op, (serve op s.store).1)]) = own c' (h.filterMap Event.answered) ++
        (Function.update s.phase c (.done op (serve op s.store).1) c').owed := by
      intro c'
      rw [own_append, he.answered c']
      by_cases hc : c' = c
      · subst hc
        rw [update_self, hpending, own_self]
        exact congrArg (· ++ _) (append_nil _)
      · rw [update_of_ne hc, own_other (Ne.symm hc), append_nil]
    refine ⟨order ++ [(c, op, (serve op s.store).1)], serial_concat he.serial, ?_, ?_, ?_⟩
    · rw [toList_none, append_nil]
      exact hown
    · rw [toList_none, append_nil]
      intro c'
      have hwaits : (s.phase c').waiting = (own c' [(c, op, (serve op s.store).1)]).map Prod.fst ++
          (Function.update s.phase c (.done op (serve op s.store).1) c').waiting := by
        by_cases hc : c' = c
        · subst hc
          rw [update_self, hpending, own_self]
          rfl
        · rw [update_of_ne hc, own_other (Ne.symm hc)]
          rfl
      rw [he.called c', own_append, map_append, hwaits, append_assoc]
    · rw [toList_none, append_nil]
      intro h' hh'
      obtain ⟨order', horder', hwithin⟩ := he.moments h' hh'
      exact ⟨order', horder'.trans (prefix_append _ _), hwithin⟩
  | @answer c op reply hdone =>
    have hcalled : ∀ c', own c' ((h ++ [Event.answer c op reply]).filterMap Event.called) = own c' (h.filterMap Event.called) := by
      intro c'
      rw [filterMap_append, own_append]
      exact append_nil _
    have howed : ∀ c', own c' order = own c' ((h ++ [Event.answer c op reply]).filterMap Event.answered) ++
        (Function.update s.phase c .idle c').owed := by
      intro c'
      rw [filterMap_append, own_append, he.answered c']
      by_cases hc : c' = c
      · subst hc
        have hself : own c' ([Event.answer c' op reply].filterMap Event.answered) = [(op, reply)] := own_self c' (op, reply)
        rw [update_self, hdone, hself]
        exact (append_nil _).symm
      · have hother : own c' ([Event.answer c op reply].filterMap Event.answered) = [] := own_other (Ne.symm hc) (op, reply)
        rw [update_of_ne hc, hother, append_nil]
    have hwaiting : ∀ c', own c' ((h ++ [Event.answer c op reply]).filterMap Event.called) =
        (own c' order).map Prod.fst ++ (Function.update s.phase c .idle c').waiting := by
      intro c'
      rw [hcalled, he.called c']
      by_cases hc : c' = c
      · subst hc
        rw [update_self, hdone]
        rfl
      · rw [update_of_ne hc]
    refine ⟨order, he.serial, howed, hwaiting, moments_concat he.moments ?_⟩
    intro c'
    rw [hwaiting, howed]
    exact ⟨prefix_append _ _, prefix_append _ _⟩

end

section

variable [DecidableEq Client] {h : List (Event Client Op Reply)} {order : List (Client × Op × Reply)}

theorem count_own {α : Type} [BEq α] [LawfulBEq α] [BEq (Client × α)] [LawfulBEq (Client × α)] (c : Client) (a : α)
    (l : List (Client × α)) : (own c l).count a = l.count (c, a) := by
  induction l with
  | nil => rfl
  | cons p l ih =>
    obtain ⟨c', b⟩ := p
    by_cases hc : c' = c
    · have hown : own c ((c', b) :: l) = b :: own c l := filterMap_cons_some (if_pos hc)
      subst hc
      have hsame : (b == a) = ((c', b) == (c', a)) := by
        rw [Bool.eq_iff_iff, beq_iff_eq, beq_iff_eq, Prod.mk.injEq, eq_self, true_and]
      rw [hown, count_cons, count_cons, ih, hsame]
    · have hown : own c ((c', b) :: l) = own c l := filterMap_cons_none (if_neg hc)
      rw [hown, ih, count_cons_of_ne]
      simp [hc]

theorem Within.subperm (hwithin : Within h order) : (h.filterMap Event.answered).Subperm order := by
  classical
  refine subperm_ext_iff.2 ?_
  rintro ⟨c, a⟩ -
  rw [← count_own c a, ← count_own c a]
  exact (hwithin c).1.sublist.count_le a

theorem Within.call_mem (hwithin : Within h order) {c : Client} {op : Op} {reply : Reply} (hmem : (c, op, reply) ∈ order) : Event.call c op ∈ h := by
  have hown : op ∈ (own c order).map Prod.fst := List.mem_map.2 ⟨(op, reply), mem_filterMap.2 ⟨_, hmem, if_pos rfl⟩, rfl⟩
  obtain ⟨⟨c', op'⟩, hcalled, hc⟩ := mem_filterMap.1 ((hwithin c).2.subset hown)
  obtain ⟨e, he, hcall⟩ := mem_filterMap.1 hcalled
  by_cases hsame : c' = c
  · subst hsame
    rw [if_pos rfl] at hc
    obtain rfl := Option.some.inj hc
    cases e with
    | call c₁ op₁ =>
      obtain ⟨rfl, rfl⟩ := Prod.mk.inj (Option.some.inj hcall)
      exact he
    | answer => exact absurd hcall.symm (some_ne_none _)
  · rw [if_neg hsame] at hc
    exact absurd hc.symm (some_ne_none _)

theorem Within.perm (hwithin : Within h order)
    (hall : ∀ c, (own c (h.filterMap Event.called)).length ≤ (own c (h.filterMap Event.answered)).length) :
    (h.filterMap Event.answered).Perm order := by
  classical
  refine perm_iff_count.2 ?_
  rintro ⟨c, a⟩
  obtain ⟨hanswered, hcalled⟩ := hwithin c
  have hle := hcalled.length_le
  rw [length_map] at hle
  rw [← count_own c a, ← count_own c a, hanswered.eq_of_length (Nat.le_antisymm hanswered.length_le (hle.trans (hall c)))]

end

section

variable {S A : Type}

@[grind =] def run (step : S → A → Option (S × Option (Event Client Op Reply))) : S → List A → Option (S × List (Event Client Op Reply))
  | s, [] => some (s, [])
  | s, a :: as => (step s a).bind fun r => (run step r.1 as).map fun q => (q.1, r.2.toList ++ q.2)

/-- Each step is one of those allowed in the state before it. -/
@[grind =] def Along (allowed : S → A → Prop) (step : S → A → Option (S × Option (Event Client Op Reply))) : S → List A → Prop
  | _, [] => True
  | s, a :: as => allowed s a ∧ ∀ r ∈ step s a, Along allowed step r.1 as

instance Along.decidable {allowed : S → A → Prop} [∀ s a, Decidable (allowed s a)]
    {step : S → A → Option (S × Option (Event Client Op Reply))} : ∀ (s : S) (as : List A), Decidable (Along allowed step s as)
  | _, [] => instDecidableTrue
  | s, a :: as =>
    match h : step s a with
    | none => decidable_of_iff (allowed s a) ⟨fun ha => ⟨ha, fun r hr => absurd (h.symm.trans hr).symm (some_ne_none r)⟩, And.left⟩
    | some r =>
      have : Decidable (Along allowed step r.1 as) := Along.decidable r.1 as
      decidable_of_iff (allowed s a ∧ Along allowed step r.1 as)
        ⟨fun ha => ⟨ha.1, fun _ hr => Option.some.inj (h.symm.trans hr) ▸ ha.2⟩, fun ha => ⟨ha.1, ha.2 r h⟩⟩

variable [DecidableEq Client] {step : S → A → Option (S × Option (Event Client Op Reply))} {allowed : S → A → Prop}
  {serve : Op → Store → Reply × Store} {abs : S → State Client Op Reply Store} {Inv : S → Prop} {d : Store}

def Refines (serve : Op → Store → Reply × Store) (abs : S → State Client Op Reply Store) (Inv : S → Prop) (allowed : S → A → Prop)
    (step : S → A → Option (S × Option (Event Client Op Reply))) : Prop :=
  ∀ s a s' e, Inv s → allowed s a → step s a = some (s', e) →
    Inv s' ∧ (Step serve (abs s) e (abs s') ∨ e = none ∧ abs s' = abs s)

theorem explains_run (hrefines : Refines serve abs Inv allowed step) : ∀ {as : List A} {s s' : S} {h h' : List (Event Client Op Reply)}
    {order : List (Client × Op × Reply)}, Inv s → Explains serve d h (abs s) order → Along allowed step s as →
    run step s as = some (s', h') → Inv s' ∧ ∃ order', Explains serve d (h ++ h') (abs s') order' := by
  intro as
  induction as with
  | nil =>
    intro s s' h h' order hinv he _ hrun
    obtain ⟨rfl, rfl⟩ := Prod.mk.inj (Option.some.inj hrun)
    rw [append_nil]
    exact ⟨hinv, order, he⟩
  | cons a as ih =>
    intro s s' h h' order hinv he halong hrun
    obtain ⟨⟨s₁, e⟩, hstep, hrun⟩ := bind_eq_some_iff.1 hrun
    obtain ⟨⟨s₂, h₂⟩, hrest, hpair⟩ := map_eq_some_iff.1 hrun
    obtain ⟨rfl, rfl⟩ := Prod.mk.inj hpair
    obtain ⟨hinv₁, hsim⟩ := hrefines s a s₁ e hinv halong.1 hstep
    have hexplains : ∃ order', Explains serve d (h ++ e.toList) (abs s₁) order' := by
      rcases hsim with hsim | ⟨rfl, hsame⟩
      · exact he.step hsim
      · rw [hsame, toList_none, append_nil]
        exact ⟨order, he⟩
    obtain ⟨order', he'⟩ := hexplains
    rw [← append_assoc]
    exact ih hinv₁ he' (halong.2 _ hstep) hrest

theorem linearizable_of_refines (hrefines : Refines serve abs Inv allowed step) {as : List A} {s s' : S}
    {h : List (Event Client Op Reply)} (hinv : Inv s) (hstart : abs s = ⟨d, fun _ => .idle⟩) (halong : Along allowed step s as)
    (hrun : run step s as = some (s', h)) : Linearizable serve d h (abs s').store := by
  have hexplains : Explains serve d ([] : List (Event Client Op Reply)) (abs s) [] := by
    rw [hstart]
    exact explains_start serve d
  obtain ⟨-, order, he⟩ := explains_run hrefines hinv hexplains halong hrun
  exact he.linearizable

end

end KVStores.Linearize
