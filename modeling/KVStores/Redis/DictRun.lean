import KVStores.Redis.DictOps

/-!
# Hash tables are finite maps

A dict over a whole run of calls, from `dictCreate` on. Whether tables may be resized at all is a
global setting, which calls change as well.

* `dict_run`: **a dict is a finite map in every run** in which an `int` can count the buckets of
  its tables before each call.
-/

namespace KVStores.Redis

variable {K V : Type} {ty : DictType K} {m : K → Option V}

/-- A dict, and `dict_can_resize`. -/
structure DictState (K V : Type) where
  dict : Dict K V
  canResize : Bool

inductive DictCall (K V : Type)
  | add (key : K) (val : V)
  | addRaw (key : K) (val : V)
  | replace (key : K) (val : V)
  | replaceRaw (key : K) (val : V)
  | delete (key : K)
  | find (key : K)
  | resize
  | expand (size : ℕ)
  | rehash (n : ℕ)
  | enableResize
  | disableResize

/-- `flag` is `DICT_OK`, an entry that is not `NULL`, or 1. -/
inductive DictReply (V : Type)
  | flag (ok : Bool)
  | value (val : Option V)
  | nothing

def DictState.answer (s : DictState K V) (r : Option (Bool × Dict K V)) : Option (DictReply V × DictState K V) :=
  r.map fun r => (.flag r.1, { s with dict := r.2 })

variable {s : DictState K V}

theorem DictState.answer_eq {r : Option (Bool × Dict K V)} {ok : Bool} {d : Dict K V} (h : r = some (ok, d)) :
    s.answer r = some (.flag ok, { s with dict := d }) := by
  rw [h]
  rfl

@[grind =] def dictCall (ty : DictType K) (s : DictState K V) : DictCall K V → Option (DictReply V × DictState K V)
  | .add key val => s.answer (dictAdd ty s.canResize s.dict key val)
  | .addRaw key val => s.answer (dictAddRaw ty s.canResize s.dict key val)
  | .replace key val => s.answer (dictReplace ty s.canResize s.dict key val)
  | .replaceRaw key val => s.answer (dictReplaceRaw ty s.canResize s.dict key val)
  | .delete key => s.answer (dictDelete ty s.dict key)
  | .find key => (dictFind ty s.dict key).map fun r => (.value (r.1.map Prod.snd), { s with dict := r.2 })
  | .resize => s.answer (some (dictResize s.canResize s.dict))
  | .expand size => s.answer (some (dictExpand s.dict size))
  | .rehash n => s.answer (dictRehash ty n s.dict)
  | .enableResize => some (.nothing, { s with canResize := true })
  | .disableResize => some (.nothing, { s with canResize := false })

def setKey (ty : DictType K) (key : K) (val : Option V) (m : K → Option V) : K → Option V :=
  fun k => if ty.keyCompare k key = true then val else m k

/-- What a finite map answers to a call and becomes. The answers about tables are left open. -/
@[grind =] def MapAnswers (ty : DictType K) (m : K → Option V) (reply : DictReply V) (m' : K → Option V) : DictCall K V → Prop
  | .add key val | .addRaw key val =>
    reply = .flag (m key).isNone ∧ m' = if (m key).isNone then setKey ty key (some val) m else m
  | .replace key val => reply = .flag (m key).isNone ∧ m' = setKey ty key (some val) m
  | .replaceRaw key val => reply = .flag true ∧ m' = setKey ty key (some val) m
  | .delete key => reply = .flag (m key).isSome ∧ m' = setKey ty key none m
  | .find key => reply = .value (m key) ∧ m' = m
  | .resize | .expand _ | .rehash _ => m' = m
  | .enableResize | .disableResize => reply = .nothing ∧ m' = m

def DictCall.addedKey : DictCall K V → Option K
  | .add key _ | .addRaw key _ | .replace key _ | .replaceRaw key _ => some key
  | _ => none

/-- While a rehashing is in progress, a key that was added is not in the first table. -/
def AddedToSecond (ty : DictType K) (m : K → Option V) (c : DictCall K V) (d : Dict K V) : Prop :=
  ∀ key, c.addedKey = some key → m key = none → d.isRehashing = true → ∀ e ∈ d.ht0.entries, ty.keyCompare key e.1 = false

structure DictGood (ty : DictType K) (m : K → Option V) (d : Dict K V) : Prop where
  ok : d.Ok ty
  map : ∀ k, lookup ty.keyCompare k d.entries = m k

/-- **A run without a fault that keeps the order and answers as a finite map does.** -/
@[grind =] def DictRunOk (ty : DictType K) : (K → Option V) → DictState K V → List (DictCall K V) → Prop
  | m, s, [] => DictGood ty m s.dict
  | m, s, c :: cs => DictGood ty m s.dict ∧ ∃ reply s' m', dictCall ty s c = some (reply, s') ∧ MapAnswers ty m reply m' c ∧
      AddedToSecond ty m c s'.dict ∧ DictRunOk ty m' s' cs

/-- A run in which an `int` can count the buckets before each call. -/
@[grind =] def DictSmallRun (ty : DictType K) : DictState K V → List (DictCall K V) → Prop
  | _, [] => True
  | s, c :: cs => s.dict.Small ∧ ∀ reply s', dictCall ty s c = some (reply, s') → DictSmallRun ty s' cs

variable {d d' : Dict K V} {k : K} {v : V}

theorem DictGood.kept (h : DictGood ty m d) (hk : d.Kept ty d') : DictGood ty m d' := ⟨hk.ok, fun k => hk.lookup.trans (h.map k)⟩

theorem DictGood.added (h : DictGood ty m d) (ha : Dict.Added ty k v d d') : DictGood ty (setKey ty k (some v) m) d' :=
  ⟨ha.ok, fun k' => by rw [ha.lookup, h.map, setKey]⟩

theorem DictGood.set (h : DictGood ty m d) (hs : Dict.Set ty k v d d') : DictGood ty (setKey ty k (some v) m) d' :=
  ⟨hs.ok, fun k' => by rw [hs.lookup h.ok, h.map, setKey]⟩

theorem DictGood.deleted (h : DictGood ty m d) (hd : Dict.Deleted ty k d d') : DictGood ty (setKey ty k none m) d' :=
  ⟨hd.ok, fun k' => by rw [hd.lookup h.ok, h.map, setKey]⟩

theorem setKey_none (h : DictGood ty m d) (hk : m k = none) : setKey ty k none m = m := by
  funext k'
  unfold setKey
  by_cases hc : ty.keyCompare k' k = true
  · rw [if_pos hc, ← h.map, lookup_congr ty.equiv hc, h.map, hk]
  · rw [if_neg hc]

theorem addRaw_step (hgood : DictGood ty m s.dict) (hsmall : s.dict.Small) (k : K) (v : V) :
    ∃ s', s.answer (dictAddRaw ty s.canResize s.dict k v) = some (.flag (m k).isNone, s') ∧
      DictGood ty (if (m k).isNone then setKey ty k (some v) m else m) s'.dict ∧
      (m k = none → s'.dict.isRehashing = true → ∀ e ∈ s'.dict.ht0.entries, ty.keyCompare k e.1 = false) := by
  obtain ⟨added, d', h1, h2, h3, h4⟩ := dictAddRaw_spec s.canResize hgood.ok hsmall k v
  rw [hgood.map] at h2
  refine ⟨{ s with dict := d' }, by rw [h1, h2]; rfl, ?_, fun hnone => (h3 (by rw [h2, hnone]; rfl)).second⟩
  rw [← h2]
  cases added with
  | true => exact hgood.added (h3 rfl)
  | false => exact hgood.kept (h4 rfl).1

/-- **One call** runs into no fault, keeps the order and answers as the map does. -/
theorem dict_step (hgood : DictGood ty m s.dict) (hsmall : s.dict.Small) (c : DictCall K V) :
    ∃ reply s' m', dictCall ty s c = some (reply, s') ∧ MapAnswers ty m reply m' c ∧ AddedToSecond ty m c s'.dict ∧
      DictGood ty m' s'.dict := by
  cases c with
  | add k v =>
    obtain ⟨s', h1, h2, h3⟩ := addRaw_step hgood hsmall k v
    exact ⟨_, s', _, h1, ⟨rfl, rfl⟩, fun _ hk => Option.some.inj hk ▸ h3, h2⟩
  | addRaw k v =>
    obtain ⟨s', h1, h2, h3⟩ := addRaw_step hgood hsmall k v
    exact ⟨_, s', _, h1, ⟨rfl, rfl⟩, fun _ hk => Option.some.inj hk ▸ h3, h2⟩
  | replace k v =>
    obtain ⟨added, d', h1, h2, h3, h4⟩ := dictReplace_spec s.canResize hgood.ok hsmall k v
    rw [hgood.map] at h2
    refine ⟨.flag added, { s with dict := d' }, _, DictState.answer_eq h1, ⟨by rw [h2], rfl⟩, fun key hk hnone => ?_, ?_⟩
    · obtain rfl := Option.some.inj hk
      exact (h3 (by rw [h2, hnone]; rfl)).second
    · cases added with
      | true => exact hgood.added (h3 rfl)
      | false => exact hgood.set (h4 rfl)
  | replaceRaw k v =>
    obtain ⟨d', h1, h2, h3⟩ := dictReplaceRaw_spec s.canResize hgood.ok hsmall k v
    rw [hgood.map] at h2 h3
    refine ⟨.flag true, { s with dict := d' }, _, DictState.answer_eq h1, ⟨rfl, rfl⟩, fun key hk hnone => ?_, ?_⟩
    · obtain rfl := Option.some.inj hk
      exact (h2 hnone).second
    · by_cases hnone : m k = none
      · exact hgood.added (h2 hnone)
      · exact hgood.set (h3 hnone)
  | delete k =>
    obtain ⟨deleted, d', h1, h2, h3, h4⟩ := dictDelete_spec hgood.ok hsmall.ht0 k
    rw [hgood.map] at h2
    refine ⟨.flag deleted, { s with dict := d' }, _, DictState.answer_eq h1, ⟨by rw [h2], rfl⟩, fun _ hk => (by cases hk), ?_⟩
    cases deleted with
    | true => exact hgood.deleted (h3 rfl)
    | false =>
      rw [setKey_none hgood (Option.isNone_iff_eq_none.1 (Option.isSome_eq_false_iff.1 h2.symm))]
      exact hgood.kept (h4 rfl)
  | find k =>
    obtain ⟨found, d', h1, h2, h3⟩ := dictFind_spec hgood.ok hsmall.ht0 k
    refine ⟨.value (m k), { s with dict := d' }, m, ?_, ⟨rfl, rfl⟩, fun _ hk => (by cases hk), hgood.kept h3⟩
    rw [dictCall, h1, ← hgood.map, ← h2]
    rfl
  | resize => exact ⟨_, _, m, rfl, rfl, fun _ hk => (by cases hk), hgood.kept (dictResize_kept s.canResize hgood.ok)⟩
  | expand size => exact ⟨_, _, m, rfl, rfl, fun _ hk => (by cases hk), hgood.kept (dictExpand_kept size hgood.ok)⟩
  | rehash n =>
    obtain ⟨more, d', h1, h2⟩ := dictRehash_kept n hgood.ok hsmall.ht0
    exact ⟨.flag more, { s with dict := d' }, m, DictState.answer_eq h1, rfl, fun _ hk => (by cases hk), hgood.kept h2⟩
  | enableResize => exact ⟨_, _, m, rfl, ⟨rfl, rfl⟩, fun _ hk => (by cases hk), hgood⟩
  | disableResize => exact ⟨_, _, m, rfl, ⟨rfl, rfl⟩, fun _ hk => (by cases hk), hgood⟩

theorem dict_run_from : ∀ (cs : List (DictCall K V)) {m : K → Option V} {s : DictState K V}, DictGood ty m s.dict →
    DictSmallRun ty s cs → DictRunOk ty m s cs := by
  intro cs
  induction cs with
  | nil =>
    intro m s hgood _
    exact hgood
  | cons c cs ih =>
    intro m s hgood hsmall
    obtain ⟨reply, s', m', h1, h2, h3, h4⟩ := dict_step hgood hsmall.1 c
    exact ⟨hgood, reply, s', m', h1, h2, h3, ih h4 (hsmall.2 reply s' h1)⟩

theorem dict_run (ty : DictType K) (canResize : Bool) (cs : List (DictCall K V)) (hsmall : DictSmallRun ty ⟨dictCreate, canResize⟩ cs) :
    DictRunOk ty (fun _ => none) ⟨dictCreate, canResize⟩ cs :=
  dict_run_from cs ⟨Dict.create_ok, fun _ => rfl⟩ hsmall

def numberType : DictType UInt32 where
  hashFunction := id
  keyCompare a b := a == b
  equiv := ⟨fun a => beq_self_eq_true a, fun _ _ h => beq_iff_eq.2 (beq_iff_eq.1 h).symm,
    fun _ _ _ h h' => beq_iff_eq.2 ((beq_iff_eq.1 h).trans (beq_iff_eq.1 h'))⟩
  hash_eq _ _ h := beq_iff_eq.1 h

theorem dict_run_small : DictRunOk numberType (fun _ => none) ⟨dictCreate, true⟩
    [.add 3 'a', .add 7 'b', .expand 8, .rehash 1, .replace 7 'c', .delete 3, .find 7] :=
  dict_run numberType true _ (by
    refine ⟨⟨by decide, by decide, by decide⟩, fun _ _ h => ?_⟩
    cases h
    refine ⟨⟨by decide, by decide, by decide⟩, fun _ _ h => ?_⟩
    cases h
    refine ⟨⟨by decide, by decide, by decide⟩, fun _ _ h => ?_⟩
    cases h
    refine ⟨⟨by decide, by decide, by decide⟩, fun _ _ h => ?_⟩
    cases h
    refine ⟨⟨by decide, by decide, by decide⟩, fun _ _ h => ?_⟩
    cases h
    refine ⟨⟨by decide, by decide, by decide⟩, fun _ _ h => ?_⟩
    cases h
    refine ⟨⟨by decide, by decide, by decide⟩, fun _ _ h => ?_⟩
    cases h
    trivial)

/-- **A new key is refused**: in a table of `2^32` buckets the number of its bucket, as an `int`, is -1. -/
theorem dict_expand_add : ¬ DictRunOk numberType (fun _ => none) ⟨dictCreate, true⟩ [.expand (2 ^ 31 + 1), .add 0xFFFFFFFF 'a'] := by
  rintro ⟨-, reply, s, m, hcall, hm, -, -, reply', s', m', hcall', hm', -⟩
  cases hcall
  cases hm
  have hadd : ((dictCall numberType ⟨(dictExpand (dictCreate : Dict UInt32 Char) (2 ^ 31 + 1)).2, true⟩
      (.add 0xFFFFFFFF 'a')).map fun r => match r.1 with | .flag ok => ok | _ => true) = some false := by decide
  rw [show dictCall numberType ⟨(dictExpand (dictCreate : Dict UInt32 Char) (2 ^ 31 + 1)).2, true⟩ (.add 0xFFFFFFFF 'a') =
    some (reply', s') from hcall', hm'.1] at hadd
  cases hadd

end KVStores.Redis
