import KVStores.Redis.DictIteration

/-!
# Iterations of hash tables

Runs of `dictNext` with other calls between them. A script says which calls follow each `dictNext`.

* `dict_iteration`: **an iteration ends, and returns each key once** that is there from the first
  `dictNext` to the end; a key that is returned twice was deleted in between.
-/

namespace KVStores.Redis

open List Option

variable {K V : Type} {ty : DictType K} {k : K} {e : K × V}

structure IterState (K V : Type) where
  state : DictState K V
  iter : DictIterator K

/-- `dictNext`. -/
def iterNext (ty : DictType K) (s : IterState K V) : Option (Option (K × V) × IterState K V) :=
  (dictNext ty s.iter s.state.dict).map fun r => (r.1, ⟨{ s.state with dict := r.2.2 }, r.2.1⟩)

@[grind =] def runCalls (ty : DictType K) : List (DictCall K V) → DictState K V → Option (DictState K V)
  | [], s => some s
  | c :: cs, s => (dictCall ty s c).bind fun r => runCalls ty cs r.2

/-- The state before a `dictNext`, when the ones before it have returned entries. -/
@[grind =] def iterRun (ty : DictType K) (script : ℕ → List (DictCall K V)) (s0 : IterState K V) : ℕ → Option (IterState K V)
  | 0 => some s0
  | n + 1 => (iterRun ty script s0 n).bind fun s => (iterNext ty s).bind fun r =>
      r.1.bind fun _ => (runCalls ty (script n) r.2.state).map fun state => { r.2 with state := state }

/-- What a `dictNext` returns. -/
def returned (ty : DictType K) (script : ℕ → List (DictCall K V)) (s0 : IterState K V) (n : ℕ) : Option (Option (K × V)) :=
  (iterRun ty script s0 n).bind fun s => (iterNext ty s).map Prod.fst

/-- Calls that may stand behind a `dictNext`, in tables whose buckets an `int` can count. -/
@[grind =] def CallsAllowed (ty : DictType K) : Option K → List (DictCall K V) → DictState K V → Prop
  | _, [], _ => True
  | last, c :: cs, s => CallAllowed ty last c ∧ s.dict.Small ∧
      ∀ reply s', dictCall ty s c = some (reply, s') → CallsAllowed ty (lastAfter last c) cs s'

/-- A script whose calls may stand there, for an iterator that is not safe one without calls. -/
def ScriptAllowed (ty : DictType K) (script : ℕ → List (DictCall K V)) (s0 : IterState K V) : Prop :=
  ∀ n s, iterRun ty script s0 n = some s → s.state.dict.ht0.size < intLimit ∧ s.state.dict.ht1.size < intLimit ∧
    ∀ e s', iterNext ty s = some (some e, s') → (s.iter.safe = true ∨ script n = []) ∧ CallsAllowed ty (some e.1) (script n) s'.state

/-- A key that no call of a script deletes, from one `dictNext` to another. -/
def Undeleted (ty : DictType K) (script : ℕ → List (DictCall K V)) (m n : ℕ) (k : K) : Prop :=
  ∀ j, m ≤ j → j < n → ∀ key, .delete key ∈ script j → ty.keyCompare key k = false

structure IterationOk (ty : DictType K) (script : ℕ → List (DictCall K V)) (s0 : IterState K V) : Prop where
  ends : ∃ n, returned ty script s0 n = some none ∧ ∀ m < n, ∃ e, returned ty script s0 m = some (some e)
  once : ∀ n k, returned ty script s0 n = some none → lookup ty.keyCompare k s0.state.dict.entries ≠ none → Undeleted ty script 0 n k →
    ∃! m, m < n ∧ ∃ e, returned ty script s0 m = some (some e) ∧ ty.keyCompare k e.1 = true
  twice : ∀ m n e e', m < n → returned ty script s0 m = some (some e) → returned ty script s0 n = some (some e') →
    ty.keyCompare e.1 e'.1 = true → ¬ Undeleted ty script m n e.1
  present : ∀ n s e, iterRun ty script s0 n = some s → returned ty script s0 n = some (some e) →
    lookup ty.keyCompare e.1 s.state.dict.entries = some e.2

variable {script : ℕ → List (DictCall K V)} {s s0 : IterState K V}

def DictIterator.rest (ty : DictType K) (it : DictIterator K) (d : Dict K V) : List K :=
  match it.entry, it.nextEntry with
  | some _, some key => (chainFrom ty key ((d.ht it.table).table it.index.toNat)).map Prod.fst
  | _, _ => []

variable {it : DictIterator K} {d : Dict K V} {post : List K}

theorem Stands.rest {last : Option K} (hok : d.Ok ty) (h : Stands it d last post) : it.rest ty d = post := by
  rcases h with ⟨hentry, -, -, rfl, -⟩ | ⟨i, pre, hv, -⟩
  · unfold DictIterator.rest
    rw [hentry]
  · obtain ⟨a, ha⟩ := ne_none_iff_exists'.1 hv.entry
    unfold DictIterator.rest
    rw [ha, hv.next, hv.index, Int.toNat_natCast]
    cases post with
    | nil => rfl
    | cons b post =>
      have hkeys : ((d.ht it.table).table i).map Prod.fst = pre ++ b :: post := hv.keys
      obtain ⟨e, rest, hchain, rfl, hrest⟩ := chainFrom_eq hkeys (hok.keys_pairwise it.table i)
      dsimp only [List.head?_cons]
      rw [hchain, map_cons, hrest]

def IterState.Pending (ty : DictType K) (s : IterState K V) (k : K) : Prop :=
  ∃ a, s.iter.Pending s.state.dict (s.iter.rest ty s.state.dict) a ∧ ty.keyCompare k a = true

def IterState.rank (ty : DictType K) (s : IterState K V) : ℕ ×ₗ ℕ ×ₗ ℕ := s.iter.rank s.state.dict (s.iter.rest ty s.state.dict)

/-- The dict is in order, the iterator stands somewhere, and a safe iterator that has started is counted. -/
structure IterInv (ty : DictType K) (s : IterState K V) : Prop where
  ok : s.state.dict.Ok ty
  stands : ∃ last, Stands s.iter s.state.dict last (s.iter.rest ty s.state.dict)
  counted : s.iter.entry ≠ none → s.iter.safe = true → 0 < s.state.dict.iterators

/-- The calls behind a `dictNext` leave the iterator where it is. -/
structure CallsStayed (ty : DictType K) (it : DictIterator K) (post : List K) (cs : List (DictCall K V)) (d d' : Dict K V) : Prop where
  ok : d'.Ok ty
  stands : ∃ last, Stands it d' last post
  size : (d'.ht it.table).size = (d.ht it.table).size
  ahead : ∀ a, it.Pending d post a → it.Pending d' post a
  behind : ∀ k, (∀ key, .delete key ∈ cs → ty.keyCompare key k = false) → Has ty k d →
    (∃ a, it.Pending d' post a ∧ ty.keyCompare k a = true) → ∃ a, it.Pending d post a ∧ ty.keyCompare k a = true
  iterators : d'.iterators = d.iterators
  has : ∀ k, (∀ key, .delete key ∈ cs → ty.keyCompare key k = false) → Has ty k d → Has ty k d'

theorem Has.congr {k k' : K} (h : Has ty k d) (hk : ty.keyCompare k k' = true) : Has ty k' d := by
  obtain ⟨table, m, a, ha, hka⟩ := h
  exact ⟨table, m, a, ha, ty.equiv.trans _ _ _ (ty.equiv.symm _ _ hk) hka⟩

theorem runCalls_stayed : ∀ (cs : List (DictCall K V)) {s : DictState K V} {last : Option K},
    s.dict.Ok ty → (cs ≠ [] → 0 < s.dict.iterators) → (∃ i pre, Visiting it s.dict i pre post ∧ ∀ l, last = some l → l ∈ pre) →
    CallsAllowed ty last cs s → ∃ s', runCalls ty cs s = some s' ∧ CallsStayed ty it post cs s.dict s'.dict := by
  intro cs
  induction cs with
  | nil =>
    intro s last hok _ hv _
    exact ⟨s, rfl, hok, ⟨last, Or.inr hv⟩, rfl, fun _ => id, fun _ _ _ => id, rfl, fun _ _ => id⟩
  | cons c cs ih =>
    intro s last hok hiter hv hallowed
    obtain ⟨i, pre, hv, hl⟩ := hv
    obtain ⟨hc, hsmall, hrest⟩ := hallowed
    have hiter := hiter (cons_ne_nil c cs)
    obtain ⟨reply, s1, hcall, hok1, hstay⟩ := stands_call hok hsmall hiter hv hl hc
    obtain ⟨s2, hrun, h2⟩ := ih hok1 (fun _ => hstay.iterators ▸ hiter) hstay.visiting (hrest reply s1 hcall)
    refine ⟨s2, by rw [runCalls, hcall]; exact hrun, h2.ok, h2.stands, h2.size.trans hstay.size, fun a ha => h2.ahead a (hstay.ahead a ha),
      fun k hk hhas hp => ?_, h2.iterators.trans hstay.iterators, fun k hk hhas => ?_⟩
    · have hdel : ∀ key, c = .delete key → ty.keyCompare key k = false := fun key hc => hk key (hc ▸ mem_cons_self)
      obtain ⟨a, ha, hka⟩ := h2.behind k (fun key hmem => hk key (mem_cons_of_mem _ hmem)) (hstay.has k hdel hhas) hp
      rcases hstay.behind a ha with ha | hnot
      · exact ⟨a, ha, hka⟩
      · exact absurd (hhas.congr hka) hnot
    · exact h2.has k (fun key hmem => hk key (mem_cons_of_mem _ hmem))
        (hstay.has k (fun key hc => hk key (hc ▸ mem_cons_self)) hhas)

/-- One `dictNext` that returns an entry, and the calls behind it. -/
structure RoundOk (ty : DictType K) (cs : List (DictCall K V)) (e : K × V) (s s' : IterState K V) : Prop where
  inv : IterInv ty s'
  rank : s'.rank ty < s.rank ty
  safe : s'.iter.safe = s.iter.safe
  taken : ∀ k, ty.keyCompare k e.1 = true → s.Pending ty k
  passed : ∀ k, s.Pending ty k → ty.keyCompare k e.1 = true ∨ s'.Pending ty k
  gone : ∀ k, (∀ key, .delete key ∈ cs → ty.keyCompare key k = false) → Has ty k s.state.dict →
    (ty.keyCompare k e.1 = true ∨ ¬ s.Pending ty k) → ¬ s'.Pending ty k
  has : ∀ k, (∀ key, .delete key ∈ cs → ty.keyCompare key k = false) → Has ty k s.state.dict → Has ty k s'.state.dict

theorem Visiting.iterators {i : ℕ} {pre : List K} (h : Visiting it d i pre post) (n : ℕ) :
    Visiting it { d with iterators := n } i pre post := ⟨h.index, h.entry, h.inside, h.keys, h.next, h.second⟩

/-- **A round** runs into no fault. It returns nothing when no key is ahead, or else a key that was ahead and is no more. -/
theorem round_step {cs : List (DictCall K V)} (hinv : IterInv ty s) (h0 : s.state.dict.ht0.size < intLimit) (h1 : s.state.dict.ht1.size < intLimit)
    (hcs : ∀ e s', iterNext ty s = some (some e, s') → (s.iter.safe = true ∨ cs = []) ∧ CallsAllowed ty (some e.1) cs s'.state) :
    ∃ r s1, iterNext ty s = some (r, s1) ∧ (r = none → ∀ k, ¬ s.Pending ty k) ∧ ∀ e, r = some e → e ∈ s.state.dict.entries ∧
      ∃ state, runCalls ty cs s1.state = some state ∧ RoundOk ty cs e s { s1 with state := state } := by
  obtain ⟨last, hstands⟩ := hinv.stands
  obtain ⟨r, it', hnext, hend, hmore⟩ := dictNext_spec hinv.ok h0 h1 hstands
  obtain ⟨n, hreg, hle, hstart⟩ := register_eq s.iter s.state.dict
  rw [hreg] at hnext
  have hiter : iterNext ty s = some (r, ⟨{ s.state with dict := { s.state.dict with iterators := n } }, it'⟩) := by
    unfold iterNext
    rw [hnext]
    rfl
  refine ⟨r, _, hiter, fun hr k ⟨a, ha, _⟩ => hend hr a ha, fun e he => ?_⟩
  subst he
  obtain ⟨post', hadv⟩ := hmore e rfl
  refine ⟨hadv.mem, ?_⟩
  obtain ⟨hsafe, hallowed⟩ := hcs e _ hiter
  have hok1 : Dict.Ok ty { s.state.dict with iterators := n } := ⟨hinv.ok.ht0, hinv.ok.ht1, hinv.ok.distinct, hinv.ok.idle, hinv.ok.busy⟩
  -- a safe iterator is counted from its first `dictNext` on
  have hcounted : s.iter.safe = true → 0 < n := by
    intro hsafe
    by_cases hentry : s.iter.entry = none
    · rcases hstands with ⟨-, hindex, htable, -⟩ | ⟨i, pre, hv, -⟩
      · exact hstart hsafe hindex htable
      · exact absurd hentry hv.entry
    · exact (hinv.counted hentry hsafe).trans_le hle
  have hvisiting : ∃ i pre, Visiting it' { s.state.dict with iterators := n } i pre post' ∧ ∀ l, some e.1 = some l → l ∈ pre := by
    rcases hadv.stands with ⟨-, -, -, -, hnone⟩ | ⟨i, pre, hv, hl⟩
    · cases hnone
    · exact ⟨i, pre, hv.iterators n, hl⟩
  obtain ⟨state, hrun, hstay⟩ := runCalls_stayed cs hok1 (fun hne => hcounted (hsafe.resolve_right hne)) hvisiting hallowed
  obtain ⟨last', hstands'⟩ := hstay.stands
  have hrest : it'.rest ty state.dict = post' := hstands'.rest hstay.ok
  have hpending : ∀ k, IterState.Pending ty ⟨state, it'⟩ k ↔ ∃ a, it'.Pending state.dict post' a ∧ ty.keyCompare k a = true := by
    intro k
    unfold IterState.Pending
    rw [hrest]
  -- a key that was ahead, and is another one than that of the entry, is still ahead
  have hpassed : ∀ k, s.Pending ty k → ty.keyCompare k e.1 = true ∨ ∃ a, it'.Pending s.state.dict post' a ∧ ty.keyCompare k a = true := by
    rintro k ⟨a, ha, hka⟩
    rcases (hadv.pending a).1 ha with rfl | ha
    · exact Or.inl hka
    · exact Or.inr ⟨a, ha, hka⟩
  refine ⟨state, hrun, ⟨hstay.ok, ⟨last', by rw [hrest]; exact hstands'⟩, fun _ hs => ?_⟩, ?_, hadv.safe, fun k hk => ?_, fun k hk => ?_,
    fun k hdel hhas hk => ?_, fun k hdel hhas => hstay.has k hdel hhas⟩
  · rw [hstay.iterators]
    exact hcounted (hadv.safe ▸ hs)
  · have hrank : IterState.rank ty ⟨state, it'⟩ = it'.rank s.state.dict post' := by
      unfold IterState.rank DictIterator.rank
      rw [hrest, hstay.size]
      rfl
    exact (show IterState.rank ty ⟨state, it'⟩ < s.rank ty from hrank ▸ hadv.rank)
  · exact ⟨e.1, (hadv.pending e.1).2 (Or.inl rfl), hk⟩
  · exact (hpassed k hk).imp_right fun ⟨a, ha, hka⟩ => (hpending k).2 ⟨a, hstay.ahead a ha, hka⟩
  · intro hp
    obtain ⟨a, ha, hka⟩ := hstay.behind k hdel hhas ((hpending k).1 hp)
    rcases hk with hk | hk
    · have hea : ty.keyCompare e.1 a = true := ty.equiv.trans _ _ _ (ty.equiv.symm _ _ hk) hka
      rw [hadv.passed a ha] at hea
      cases hea
    · exact hk ⟨a, (hadv.pending a).2 (Or.inr ha), hka⟩

variable {n : ℕ}

theorem iterRun_of_returned {r : Option (K × V)} (h : returned ty script s0 n = some r) :
    ∃ s, iterRun ty script s0 n = some s ∧ (iterNext ty s).map Prod.fst = some r := bind_eq_some_iff.1 h

/-- **One more `dictNext`** of a run. -/
theorem iterRun_step (hallowed : ScriptAllowed ty script s0) (hrun : iterRun ty script s0 n = some s) (hinv : IterInv ty s) :
    (returned ty script s0 n = some none ∧ ∀ k, ¬ s.Pending ty k) ∨
      ∃ e s', returned ty script s0 n = some (some e) ∧ e ∈ s.state.dict.entries ∧ iterRun ty script s0 (n + 1) = some s' ∧
        RoundOk ty (script n) e s s' := by
  obtain ⟨h0, h1, hcs⟩ := hallowed n s hrun
  obtain ⟨r, s1, hnext, hend, hmore⟩ := round_step hinv h0 h1 hcs
  have hret : returned ty script s0 n = some r := by
    unfold returned
    rw [hrun, bind_some, hnext]
    rfl
  cases r with
  | none => exact Or.inl ⟨hret, hend rfl⟩
  | some e =>
    obtain ⟨hmem, state, hcalls, hround⟩ := hmore e rfl
    refine Or.inr ⟨e, _, hret, hmem, ?_, hround⟩
    rw [iterRun, hrun, bind_some, hnext, bind_some, bind_some, hcalls]
    rfl

theorem iterRun_inv (hallowed : ScriptAllowed ty script s0) (hinv : IterInv ty s0) : ∀ {n : ℕ} {s : IterState K V},
    iterRun ty script s0 n = some s → IterInv ty s ∧ ∀ m < n, ∃ e, returned ty script s0 m = some (some e) := by
  intro n
  induction n with
  | zero =>
    intro s hrun
    cases hrun
    exact ⟨hinv, fun m hm => absurd hm (Nat.not_lt_zero m)⟩
  | succ n ih =>
    intro s hrun
    obtain ⟨s1, hrun1, -⟩ := bind_eq_some_iff.1 hrun
    obtain ⟨hinv1, hbefore⟩ := ih hrun1
    rcases iterRun_step hallowed hrun1 hinv1 with ⟨hret, -⟩ | ⟨e, s', hret, -, hrun', hround⟩
    · -- a run does not go on behind its end
      obtain ⟨s2, hrun2, hnone⟩ := iterRun_of_returned hret
      rw [hrun1] at hrun2
      cases hrun2
      obtain ⟨r, hnext, hr⟩ := map_eq_some_iff.1 hnone
      rw [iterRun, hrun1, bind_some, hnext, bind_some, hr] at hrun
      cases hrun
    · rw [hrun] at hrun'
      cases hrun'
      refine ⟨hround.inv, fun m hm => ?_⟩
      rcases Nat.lt_succ_iff_lt_or_eq.1 hm with hm | rfl
      · exact hbefore m hm
      · exact ⟨e, hret⟩

/-- A key that is not deleted stays; one that is not ahead stays behind, and is not returned. -/
theorem iterRun_behind (hallowed : ScriptAllowed ty script s0) (hinv : IterInv ty s0) {m : ℕ} {s : IterState K V}
    (hrun : iterRun ty script s0 m = some s) (hhas : Has ty k s.state.dict) (hnot : ¬ s.Pending ty k) : ∀ {n : ℕ} {s' : IterState K V},
    m ≤ n → iterRun ty script s0 n = some s' → Undeleted ty script m n k → Has ty k s'.state.dict ∧ ¬ s'.Pending ty k := by
  intro n
  induction n with
  | zero =>
    intro s' hle hrun' _
    obtain rfl := Nat.le_zero.1 hle
    rw [hrun] at hrun'
    cases hrun'
    exact ⟨hhas, hnot⟩
  | succ n ih =>
    intro s' hle hrun' hdel
    rcases Nat.of_le_succ hle with hle | rfl
    · obtain ⟨s1, hrun1, -⟩ := bind_eq_some_iff.1 hrun'
      obtain ⟨h1, h2⟩ := ih hle hrun1 fun j hj hlt => hdel j hj (Nat.lt_succ_of_lt hlt)
      have hinv1 := (iterRun_inv hallowed hinv hrun1).1
      obtain ⟨e, hret⟩ := (iterRun_inv hallowed hinv hrun').2 n (Nat.lt_succ_self n)
      rcases iterRun_step hallowed hrun1 hinv1 with ⟨hnone, -⟩ | ⟨e', s2, -, -, hrun2, hround⟩
      · rw [hret] at hnone
        cases hnone
      · rw [hrun'] at hrun2
        cases hrun2
        have hcalls := hdel n hle (Nat.lt_succ_self n)
        exact ⟨hround.has k hcalls h1, hround.gone k hcalls h1 (Or.inr h2)⟩
    · rw [hrun] at hrun'
      cases hrun'
      exact ⟨hhas, hnot⟩

theorem iterRun_ahead (hallowed : ScriptAllowed ty script s0) (hinv : IterInv ty s0) (hp : s0.Pending ty k) : ∀ {n : ℕ} {s : IterState K V},
    iterRun ty script s0 n = some s → s.Pending ty k ∨ ∃ m < n, ∃ e, returned ty script s0 m = some (some e) ∧ ty.keyCompare k e.1 = true := by
  intro n
  induction n with
  | zero =>
    intro s hrun
    cases hrun
    exact Or.inl hp
  | succ n ih =>
    intro s hrun
    obtain ⟨s1, hrun1, -⟩ := bind_eq_some_iff.1 hrun
    obtain ⟨e, hret⟩ := (iterRun_inv hallowed hinv hrun).2 n (Nat.lt_succ_self n)
    rcases ih hrun1 with h | ⟨m, hm, h⟩
    · rcases iterRun_step hallowed hrun1 (iterRun_inv hallowed hinv hrun1).1 with ⟨hnone, -⟩ | ⟨e', s2, hret', -, hrun2, hround⟩
      · rw [hret] at hnone
        cases hnone
      · rw [hrun] at hrun2
        cases hrun2
        exact (hround.passed k h).symm.imp_right fun hk => ⟨n, Nat.lt_succ_self n, e', hret', hk⟩
    · exact Or.inr ⟨m, Nat.lt_succ_of_lt hm, h⟩

theorem returned_twice (hallowed : ScriptAllowed ty script s0) (hinv : IterInv ty s0) {m : ℕ} {e e' : K × V} (hlt : m < n)
    (hm : returned ty script s0 m = some (some e)) (hn : returned ty script s0 n = some (some e')) (hsame : ty.keyCompare e.1 e'.1 = true) :
    ¬ Undeleted ty script m n e.1 := by
  intro hdel
  obtain ⟨s1, hrun1, -⟩ := iterRun_of_returned hm
  obtain ⟨s2, hrun2, -⟩ := iterRun_of_returned hn
  have hinv1 := (iterRun_inv hallowed hinv hrun1).1
  rcases iterRun_step hallowed hrun1 hinv1 with ⟨hnone, -⟩ | ⟨a, s3, ha, hmem, hrun3, hround⟩
  · rw [hm] at hnone
    cases hnone
  rw [hm] at ha
  cases ha
  -- behind its round the key is in the dict and not ahead
  have hhas : Has ty e.1 s1.state.dict := by
    obtain ⟨table, i, hi⟩ := Dict.Ok.exists_keys hmem
    exact ⟨table, i, e.1, List.mem_map_of_mem hi, ty.equiv.refl _⟩
  have hcalls := hdel m (le_refl m) hlt
  have hgone := hround.gone e.1 hcalls hhas (Or.inl (ty.equiv.refl _))
  obtain ⟨-, hbehind⟩ := iterRun_behind hallowed hinv hrun3 (hround.has e.1 hcalls hhas) hgone hlt hrun2
    fun j hj hjn => hdel j (Nat.le_of_succ_le hj) hjn
  rcases iterRun_step hallowed hrun2 (iterRun_inv hallowed hinv hrun2).1 with ⟨hnone, -⟩ | ⟨b, s4, hb, -, -, hround'⟩
  · rw [hn] at hnone
    cases hnone
  · rw [hn] at hb
    cases hb
    exact hbehind (hround'.taken e.1 hsame)

theorem iterRun_ends (hallowed : ScriptAllowed ty script s0) (hinv : IterInv ty s0) (rank : ℕ ×ₗ ℕ ×ₗ ℕ) : ∀ {n : ℕ} {s : IterState K V},
    iterRun ty script s0 n = some s → s.rank ty = rank → ∃ n', returned ty script s0 n' = some none := by
  induction rank using WellFoundedLT.induction with
  | ind rank ih =>
    intro n s hrun hrank
    rcases iterRun_step hallowed hrun (iterRun_inv hallowed hinv hrun).1 with ⟨hnone, -⟩ | ⟨e, s', -, -, hrun', hround⟩
    · exact ⟨n, hnone⟩
    · exact ih (s'.rank ty) (hrank ▸ hround.rank) hrun' rfl

theorem pending_start (canResize safe : Bool) (hhas : Has ty k d) : IterState.Pending ty ⟨⟨d, canResize⟩, dictGetIterator safe⟩ k := by
  obtain ⟨table, m, a, ha, hka⟩ := hhas
  refine ⟨a, Or.inr ?_, hka⟩
  cases table with
  | true => exact Or.inr ⟨rfl, m, ha⟩
  | false => exact Or.inl ⟨m, by change (-1 : ℤ) < m; omega, ha⟩

theorem dict_iteration (ty : DictType K) (d : Dict K V) (hok : d.Ok ty) (canResize safe : Bool) (script : ℕ → List (DictCall K V))
    (hallowed : ScriptAllowed ty script ⟨⟨d, canResize⟩, dictGetIterator safe⟩) :
    IterationOk ty script ⟨⟨d, canResize⟩, dictGetIterator safe⟩ := by
  have hinv : IterInv ty ⟨⟨d, canResize⟩, dictGetIterator safe⟩ :=
    ⟨hok, ⟨none, Or.inl ⟨rfl, rfl, rfl, rfl, rfl⟩⟩, fun h => absurd rfl h⟩
  refine ⟨?_, fun n k hn hk hdel => ?_, fun m n e e' => returned_twice hallowed hinv, fun n s e hrun hret => ?_⟩
  · have hzero : iterRun ty script ⟨⟨d, canResize⟩, dictGetIterator safe⟩ 0 = some ⟨⟨d, canResize⟩, dictGetIterator safe⟩ := rfl
    obtain ⟨n, hn⟩ := iterRun_ends hallowed hinv _ hzero rfl
    obtain ⟨s, hrun, -⟩ := iterRun_of_returned hn
    exact ⟨n, hn, (iterRun_inv hallowed hinv hrun).2⟩
  · have hhas : Has ty k d := (has_iff hok).2 hk
    obtain ⟨s, hrun, -⟩ := iterRun_of_returned hn
    -- at the end nothing is ahead, so it has been returned
    rcases iterRun_ahead hallowed hinv (pending_start canResize safe hhas) hrun with hp | ⟨m, hm, e, he, hke⟩
    · rcases iterRun_step hallowed hrun (iterRun_inv hallowed hinv hrun).1 with ⟨-, hend⟩ | ⟨e, s', hret, -⟩
      · exact absurd hp (hend k)
      · rw [hn] at hret
        cases hret
    · refine ⟨m, ⟨hm, e, he, hke⟩, ?_⟩
      rintro m' ⟨hm', e', he', hke'⟩
      -- and it is not returned again
      have hundeleted : ∀ (j j' : ℕ) (a : K × V), j' < n → ty.keyCompare k a.1 = true → Undeleted ty script j j' a.1 := by
        intro j j' a hj' hka i hi hij key hkey
        rw [← DictType.keyCompare_congr hka]
        exact hdel i (Nat.zero_le i) (by omega) key hkey
      rcases Nat.lt_trichotomy m m' with hlt | heq | hlt
      · exact absurd (hundeleted m m' e hm' hke)
          (returned_twice hallowed hinv hlt he he' (ty.equiv.trans _ _ _ (ty.equiv.symm _ _ hke) hke'))
      · exact heq.symm
      · exact absurd (hundeleted m' m e' hm hke')
          (returned_twice hallowed hinv hlt he' he (ty.equiv.trans _ _ _ (ty.equiv.symm _ _ hke') hke))
  · have hinv' := (iterRun_inv hallowed hinv hrun).1
    rcases iterRun_step hallowed hrun hinv' with ⟨hnone, -⟩ | ⟨a, s', ha, hmem, -⟩
    · rw [hret] at hnone
      cases hnone
    · rw [hret] at ha
      cases ha
      exact (lookup_eq_some ty.equiv hinv'.ok.distinct).2 ⟨e, hmem, ty.equiv.refl _, rfl⟩

def rehashingDict : Dict UInt32 Char := (dictExpand ((dictAdd numberType true dictCreate 3 'a').elim dictCreate Prod.snd) 8).2

theorem rehashingDict_ok : rehashingDict.Ok numberType := by
  have hsmall : (dictCreate : Dict UInt32 Char).Small := ⟨by decide, by decide, by decide⟩
  obtain ⟨added, d, h1, -, h3, h4⟩ := dictAddRaw_spec true Dict.create_ok hsmall 3 'a'
  have hok : d.Ok numberType := by
    cases added with
    | true => exact (h3 rfl).ok
    | false => exact (h4 rfl).1.ok
  unfold rehashingDict dictAdd
  rw [h1]
  exact (dictExpand_kept 8 hok).ok

def deleteAndAdd : ℕ → List (DictCall UInt32 Char)
  | 0 => [.delete 3, .add 3 'b']
  | _ => []

theorem deleteAndAdd_allowed : ScriptAllowed numberType deleteAndAdd ⟨⟨rehashingDict, true⟩, dictGetIterator true⟩ := by
  intro n s hrun
  match n with
  | 0 =>
    cases hrun
    refine ⟨by decide, by decide, fun e s' hnext => ⟨Or.inl rfl, ?_⟩⟩
    cases hnext
    refine ⟨⟨_, rfl, rfl⟩, ⟨by decide, by decide, by decide⟩, fun _ _ h => ?_⟩
    cases h
    refine ⟨trivial, ⟨by decide, by decide, by decide⟩, fun _ _ h => ?_⟩
    cases h
    trivial
  | 1 =>
    cases hrun
    exact ⟨by decide, by decide, fun e s' hnext => ⟨Or.inl rfl, trivial⟩⟩
  | 2 =>
    cases hrun
    exact ⟨by decide, by decide, fun e s' hnext => ⟨Or.inl rfl, trivial⟩⟩
  | n + 3 =>
    -- the third `dictNext` has returned nothing
    have hnone : iterRun numberType deleteAndAdd ⟨⟨rehashingDict, true⟩, dictGetIterator true⟩ (n + 3) = none := by
      clear hrun
      induction n with
      | zero => rfl
      | succ n ih =>
        rw [iterRun, ih]
        rfl
    rw [hnone] at hrun
    cases hrun

theorem dict_iteration_deleteAndAdd : IterationOk numberType deleteAndAdd ⟨⟨rehashingDict, true⟩, dictGetIterator true⟩ :=
  dict_iteration numberType rehashingDict rehashingDict_ok true true deleteAndAdd deleteAndAdd_allowed

/-- **A key is returned twice**, when it was deleted and added again to a dict that is rehashing. -/
theorem iterate_deleted : ScriptAllowed numberType deleteAndAdd ⟨⟨rehashingDict, true⟩, dictGetIterator true⟩ ∧
    (runCalls numberType [.add 3 'a', .expand 8] ⟨dictCreate, true⟩).map (fun s => s.dict) = some rehashingDict ∧
    returned numberType deleteAndAdd ⟨⟨rehashingDict, true⟩, dictGetIterator true⟩ 0 = some (some (3, 'a')) ∧
    returned numberType deleteAndAdd ⟨⟨rehashingDict, true⟩, dictGetIterator true⟩ 1 = some (some (3, 'b')) :=
  ⟨deleteAndAdd_allowed, rfl, rfl, rfl⟩

end KVStores.Redis
