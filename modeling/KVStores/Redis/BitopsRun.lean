import KVStores.Redis.BitopsSpec
import Mathlib.Data.List.GetD

/-!
# BITOP works byte by byte
-/

namespace KVStores.Redis.Bitops

open List Option

open StringType (Obj Reply)

/-- The bytes from `lo` to `hi` are changed, each by itself. -/
structure Rewrites (f : ℕ → UInt8 → UInt8) (lo hi : ℕ) (res res' : List UInt8) : Prop where
  length : res'.length = res.length
  inside : ∀ i, lo ≤ i → i < hi → res'.getD i 0 = f i (res.getD i 0)
  outside : ∀ i, i < lo ∨ hi ≤ i → res'.getD i 0 = res.getD i 0

variable {f g : ℕ → UInt8 → UInt8} {lo mid hi : ℕ} {a b c : List UInt8}

theorem Rewrites.nothing (f : ℕ → UInt8 → UInt8) (lo : ℕ) (a : List UInt8) : Rewrites f lo lo a a := ⟨rfl, fun i h h' => absurd h (by omega), fun _ _ => rfl⟩

theorem Rewrites.append (h : Rewrites f lo mid a b) (h' : Rewrites f mid hi b c) (hlo : lo ≤ mid) (hhi : mid ≤ hi) : Rewrites f lo hi a c := by
  refine ⟨h'.length.trans h.length, fun i hi' hi'' => ?_, fun i hi' => ?_⟩
  · by_cases hmid : i < mid
    · rw [h'.outside i (Or.inl hmid), h.inside i hi' hmid]
    · rw [h'.inside i (by omega) hi'', h.outside i (by omega)]
  · rw [h'.outside i (by omega), h.outside i (by omega)]

theorem Rewrites.comp (h : Rewrites f lo hi a b) (h' : Rewrites g lo hi b c) : Rewrites (fun i x => g i (f i x)) lo hi a c :=
  ⟨h'.length.trans h.length, fun i hi hi' => by rw [h'.inside i hi hi', h.inside i hi hi'], fun i hi => by rw [h'.outside i hi, h.outside i hi]⟩

theorem Rewrites.congr (h : Rewrites f lo hi a b) (hfg : ∀ i x, f i x = g i x) : Rewrites g lo hi a b :=
  ⟨h.length, fun i hi hi' => by rw [h.inside i hi hi', hfg], h.outside⟩

variable {p : ℕ} {t : List UInt8}

theorem rewrites_write (h : p + t.length ≤ a.length) (ht : ∀ i, i < t.length → t.getD i 0 = f (p + i) (a.getD (p + i) 0)) :
    ∃ b, Memory.write a p t = some b ∧ Rewrites f p (p + t.length) a b := by
  have hlen : (a.take p).length = p := by
    rw [length_take]
    omega
  refine ⟨_, if_pos h, ?_, ?_, ?_⟩
  · rw [length_append, length_append, hlen, length_drop]
    omega
  · intro i hi hi'
    obtain ⟨k, rfl⟩ := Nat.exists_eq_add_of_le hi
    rw [append_assoc, getD_append_right _ _ _ _ (by omega), hlen, Nat.add_sub_cancel_left, getD_append _ _ _ _ (by omega), ht k (by omega)]
  · rintro i (hi | hi)
    · rw [append_assoc, getD_append _ _ _ _ (by omega), getD_eq_getElem?_getD, List.getElem?_take_of_lt hi, ← getD_eq_getElem?_getD]
    · rw [getD_append_right _ _ _ _ (by rw [length_append, hlen]; exact hi), getD_eq_getElem?_getD, List.getElem?_drop,
        ← getD_eq_getElem?_getD, length_append, hlen, Nat.add_sub_cancel' hi]

@[grind =] def Op.number : Op → ℕ → ℕ → ℕ
  | and, a, b => a &&& b
  | or, a, b => a ||| b
  | xor, a, b => a ^^^ b
  | not, a, _ => a

theorem Op.bytewise (op : Op) : Lanes.Bytewise op.number := by
  cases op with
  | and => exact Lanes.bytewise_land
  | or => exact Lanes.bytewise_lor
  | xor => exact Lanes.bytewise_xor
  | not => exact ⟨rfl, fun _ _ => rfl, fun _ _ => rfl⟩

theorem Op.byte_toNat (op : Op) (a b : UInt8) : (op.byte a b).toNat = op.number a.toNat b.toNat := by
  cases op with
  | and => exact UInt8.toNat_and a b
  | or => exact UInt8.toNat_or a b
  | xor => exact UInt8.toNat_xor a b
  | not => rfl

theorem Op.word_toNat (op : Op) (a b : UInt64) : (op.word a b).toNat = op.number a.toNat b.toNat := by
  cases op with
  | and => exact UInt64.toNat_and a b
  | or => exact UInt64.toNat_or a b
  | xor => exact UInt64.toNat_xor a b
  | not => rfl

def cut (s : List UInt8) (p n : ℕ) : List UInt8 := (s.drop p).take n

variable {s : List UInt8} {n : ℕ}

theorem length_cut (h : p + n ≤ s.length) : (cut s p n).length = n := by
  rw [cut, length_take, length_drop]
  omega

theorem getD_cut {i : ℕ} (hi : i < n) : (cut s p n).getD i 0 = s.getD (p + i) 0 := by
  rw [cut, getD_eq_getElem?_getD, List.getElem?_take_of_lt hi, List.getElem?_drop, ← getD_eq_getElem?_getD]

theorem loadUInt64_spec (h : p + 8 ≤ s.length) : ∃ w, loadUInt64 s p = some w ∧ w.toNat = ofLittleEndian (cut s p 8) := by
  have hlt : ofLittleEndian (cut s p 8) < 2 ^ 64 := by
    have := ofLittleEndian_lt (cut s p 8)
    rw [length_cut h] at this
    exact lt_of_lt_of_eq this (by norm_num)
  refine ⟨UInt64.ofNat (ofLittleEndian (cut s p 8)), ?_, ?_⟩
  · rw [loadUInt64, Memory.read, if_pos h, map_some, cut]
  · rw [UInt64.toNat_ofNat', Nat.mod_eq_of_lt hlt]

theorem storeUInt64_eq {w : UInt64} (hw : w.toNat = ofLittleEndian t) (ht : t.length = 8) : storeUInt64 s p w = Memory.write s p t := by
  rw [storeUInt64, hw, ← ht, littleEndian_ofLittleEndian]

variable {res : List UInt8} {j k : ℕ}

/-- **A word is combined with one of a source byte by byte.** -/
theorem combineWord_spec (op : Op) {src : List UInt8} (hres : j + 8 * k + 8 ≤ res.length) (hsrc : j + 8 * k + 8 ≤ src.length) :
    ∃ res', combineWord op src j res k = some res' ∧ Rewrites (fun i x => op.byte x (src.getD i 0)) (j + 8 * k) (j + 8 * k + 8) res res' := by
  obtain ⟨a, hload, ha⟩ := loadUInt64_spec hres
  obtain ⟨b, hload', hb⟩ := loadUInt64_spec hsrc
  have hlen : (cut res (j + 8 * k) 8).length = (cut src (j + 8 * k) 8).length := by rw [length_cut hres, length_cut hsrc]
  have hword : (op.word a b).toNat = ofLittleEndian ((cut res (j + 8 * k) 8).zipWith op.byte (cut src (j + 8 * k) 8)) := by
    rw [op.word_toNat, ha, hb, op.bytewise.ofLittleEndian op.byte_toNat hlen]
  have hbytes : ((cut res (j + 8 * k) 8).zipWith op.byte (cut src (j + 8 * k) 8)).length = 8 := by
    rw [length_zipWith, length_cut hres, length_cut hsrc, Nat.min_self]
  rw [combineWord, hload, bind_some, hload', bind_some, storeUInt64_eq hword hbytes]
  have hwrite := rewrites_write (f := fun i x => op.byte x (src.getD i 0)) (a := res) (p := j + 8 * k)
    (t := (cut res (j + 8 * k) 8).zipWith op.byte (cut src (j + 8 * k) 8)) (by rw [hbytes]; exact hres) ?_
  · rwa [hbytes] at hwrite
  · intro i hi
    rw [hbytes] at hi
    rw [← getD_cut (s := res) hi, ← getD_cut (s := src) hi]
    simp only [getD_eq_getElem?_getD, List.getElem?_zipWith]
    rw [List.getElem?_eq_getElem (by rw [length_cut hres]; exact hi), List.getElem?_eq_getElem (by rw [length_cut hsrc]; exact hi)]
    rfl

/-- **A word is inverted byte by byte.** -/
theorem invertWord_spec (hres : j + 8 * k + 8 ≤ res.length) :
    ∃ res', invertWord j res k = some res' ∧ Rewrites (fun _ x => ~~~x) (j + 8 * k) (j + 8 * k + 8) res res' := by
  obtain ⟨a, hload, ha⟩ := loadUInt64_spec hres
  have hword : (~~~a).toNat = ofLittleEndian ((cut res (j + 8 * k) 8).map (~~~·)) := by
    rw [UInt64.toNat_not, ha, ← Lanes.complement_ofLittleEndian, length_cut hres]
    rfl
  have hbytes : ((cut res (j + 8 * k) 8).map (~~~·)).length = 8 := by rw [length_map, length_cut hres]
  rw [invertWord, hload, bind_some, storeUInt64_eq hword hbytes]
  have hwrite := rewrites_write (f := fun _ x => ~~~x) (a := res) (p := j + 8 * k) (t := (cut res (j + 8 * k) 8).map (~~~·)) (by rw [hbytes]; exact hres) ?_
  · rwa [hbytes] at hwrite
  · intro i hi
    rw [hbytes] at hi
    rw [← getD_cut (s := res) hi, getD_eq_getElem?_getD, List.getElem?_map, List.getElem?_eq_getElem (by rw [length_cut hres]; exact hi),
      getD_eq_getElem _ _ (by rw [length_cut hres]; exact hi)]
    rfl

theorem four_words {step : List UInt8 → ℕ → Option (List UInt8)} (hstep : ∀ res k, res.length = n → k < 4 →
    ∃ res', step res k = some res' ∧ Rewrites f (j + 8 * k) (j + 8 * k + 8) res res') (hres : res.length = n) :
    ∃ res', [0, 1, 2, 3].foldlM step res = some res' ∧ Rewrites f j (j + 32) res res' := by
  obtain ⟨r₁, hstep₁, h₁⟩ := hstep res 0 hres (by omega)
  obtain ⟨r₂, hstep₂, h₂⟩ := hstep r₁ 1 (h₁.length.trans hres) (by omega)
  obtain ⟨r₃, hstep₃, h₃⟩ := hstep r₂ 2 (h₂.length.trans (h₁.length.trans hres)) (by omega)
  obtain ⟨r₄, hstep₄, h₄⟩ := hstep r₃ 3 (h₃.length.trans (h₂.length.trans (h₁.length.trans hres))) (by omega)
  refine ⟨r₄, ?_, ((h₁.append h₂ (by omega) (by omega)).append h₃ (by omega) (by omega)).append h₄ (by omega) (by omega)⟩
  simp only [foldlM_cons, foldlM_nil, hstep₁, hstep₂, hstep₃, hstep₄, bind_eq_bind, bind_some, Option.pure_def]

def outputFrom (op : Op) (srcs : List (List UInt8)) (i : ℕ) (x : UInt8) : UInt8 := srcs.foldl (fun output src => op.byte output (src.getD i 0)) x

theorem outputFrom_not (srcs : List (List UInt8)) (i : ℕ) (x : UInt8) : outputFrom .not srcs i x = x := by
  induction srcs with
  | nil => rfl
  | cons src srcs ih => exact ih

/-- **All further sources, four words of each.** -/
theorem sources_spec (op : Op) : ∀ (srcs : List (List UInt8)) (res : List UInt8), j + 32 ≤ res.length → (∀ src ∈ srcs, j + 32 ≤ src.length) →
    ∃ res', srcs.foldlM (fun res src => [0, 1, 2, 3].foldlM (combineWord op src j) res) res = some res' ∧ Rewrites (outputFrom op srcs) j (j + 32) res res' := by
  intro srcs
  induction srcs with
  | nil => exact fun res _ _ => ⟨res, rfl, rfl, fun _ _ _ => rfl, fun _ _ => rfl⟩
  | cons src srcs ih =>
    intro res hres hsrcs
    obtain ⟨hsrc, hsrcs⟩ := forall_mem_cons.1 hsrcs
    have hwords : ∀ (r : List UInt8) (k : ℕ), r.length = res.length → k < 4 →
        ∃ r', combineWord op src j r k = some r' ∧ Rewrites (fun i x => op.byte x (src.getD i 0)) (j + 8 * k) (j + 8 * k + 8) r r' :=
      fun r k hr hk => combineWord_spec op (by omega) (by omega)
    obtain ⟨r₁, hstep, h₁⟩ := four_words hwords rfl
    obtain ⟨r₂, hrest, h₂⟩ := ih r₁ (by rw [h₁.length]; exact hres) hsrcs
    refine ⟨r₂, ?_, h₁.comp h₂⟩
    rw [foldlM_cons, hstep]
    exact hrest

def output (op : Op) (srcs : List (List UInt8)) (i : ℕ) (x : UInt8) : UInt8 := outputFrom op srcs.tail i (if op = .not then ~~~x else x)

theorem outputByte_eq (op : Op) (srcs : List (List UInt8)) (i : ℕ) : outputByte op srcs i = output op srcs i ((srcs.headD []).getD i 0) := rfl

variable {srcs : List (List UInt8)}

/-- **One round of the fast path.** -/
theorem stride_spec (op : Op) (hres : j + 32 ≤ res.length) (hsrcs : ∀ src ∈ srcs, j + 32 ≤ src.length) :
    ∃ res', stride op srcs j res = some res' ∧ Rewrites (output op srcs) j (j + 32) res res' := by
  rw [stride]
  by_cases hop : op = .not
  · obtain ⟨res', hwords, h⟩ := four_words (n := res.length) (fun r k hr hk => invertWord_spec (j := j) (by omega)) rfl
    rw [if_pos hop]
    refine ⟨res', hwords, h.congr fun i x => ?_⟩
    rw [output, hop, outputFrom_not, if_pos rfl]
  · obtain ⟨res', hwords, h⟩ := sources_spec op srcs.tail res hres fun src hsrc => hsrcs src (mem_of_mem_tail hsrc)
    rw [if_neg hop]
    refine ⟨res', hwords, h.congr fun i x => ?_⟩
    rw [output, if_neg hop]

theorem fastLoop_spec (op : Op) (j minlen : ℕ) (res : List UInt8) (hres : j + minlen ≤ res.length)
    (hsrcs : ∀ src ∈ srcs, j + minlen ≤ src.length) :
    ∃ j' res', fastLoop op srcs j minlen res = some (j', res') ∧ j ≤ j' ∧ j' ≤ j + minlen ∧ Rewrites (output op srcs) j j' res res' := by
  induction minlen using Nat.strong_induction_on generalizing j res with
  | _ minlen ih =>
    rw [fastLoop]
    by_cases hmin : 32 ≤ minlen
    · obtain ⟨r₁, hstride, h₁⟩ := stride_spec op (show j + 32 ≤ res.length by omega) fun src hsrc => (by have := hsrcs src hsrc; omega)
      obtain ⟨j', res', hloop, hj, hj', h₂⟩ := ih (minlen - 32) (by omega) (j + 32) r₁ (by rw [h₁.length]; omega)
        fun src hsrc => (by have := hsrcs src hsrc; omega)
      rw [if_pos hmin, hstride, bind_some, hloop]
      exact ⟨j', res', rfl, by omega, by omega, h₁.append h₂ (by omega) hj⟩
    · rw [if_neg hmin]
      exact ⟨j, res, rfl, Nat.le_refl _, by omega, Rewrites.nothing _ _ _⟩

/-- **The byte loop** goes on to the end. -/
theorem byteLoop_spec (op : Op) (srcs : List (List UInt8)) : ∀ (n j : ℕ) (res : List UInt8), j + n ≤ res.length →
    ∃ res', (List.range' j n).foldlM (fun res j => Memory.write res j [outputByte op srcs j]) res = some res' ∧
      Rewrites (fun i _ => outputByte op srcs i) j (j + n) res res' := by
  intro n
  induction n with
  | zero => exact fun j res _ => ⟨res, rfl, Rewrites.nothing _ _ _⟩
  | succ n ih =>
    intro j res h
    obtain ⟨r₁, hwrite, h₁⟩ := rewrites_write (f := fun i _ => outputByte op srcs i) (a := res) (p := j) (t := [outputByte op srcs j])
      (by rw [length_singleton]; omega) fun i hi => by
        rw [length_singleton] at hi
        obtain rfl : i = 0 := by omega
        rfl
    rw [length_singleton] at h₁
    obtain ⟨r₂, hloop, h₂⟩ := ih (j + 1) r₁ (by rw [h₁.length]; omega)
    refine ⟨r₂, ?_, ?_⟩
    · rw [range'_succ, foldlM_cons, hwrite]
      exact hloop
    · rw [Nat.add_assoc, Nat.add_comm 1 n] at h₂
      exact h₁.append h₂ (by omega) (by omega)

def outputBytes (op : Op) (srcs : List (List UInt8)) (maxlen : ℕ) : List UInt8 := (List.range maxlen).map (outputByte op srcs)

variable {op : Op} {maxlen : ℕ}

theorem eq_outputBytes (hlen : res.length = maxlen)
    (hbytes : ∀ i, i < maxlen → res.getD i 0 = outputByte op srcs i) : res = outputBytes op srcs maxlen := by
  apply ext_getElem (by rw [outputBytes, length_map, length_range, hlen])
  intro i hi hi'
  rw [← getD_eq_getElem res 0 hi, hbytes i (by omega)]
  simp only [outputBytes, getElem_map, getElem_range]

variable {minlen : ℕ}

theorem bitopResult_spec (op : Op) (hsrcs : srcs ≠ []) (hmin : ∀ src ∈ srcs, minlen ≤ src.length)
    (hmax : minlen ≤ maxlen) : bitopResult op srcs maxlen minlen = some (outputBytes op srcs maxlen) := by
  have hzeros : (List.replicate maxlen (0 : UInt8)).length = maxlen := length_replicate
  rw [bitopResult]
  by_cases hfast : 0 < minlen ∧ srcs.length ≤ 16
  · obtain ⟨src, rest, rfl⟩ := exists_cons_of_ne_nil hsrcs
    have hsrc : minlen ≤ src.length := hmin src mem_cons_self
    have hread : Memory.read src 0 minlen = some (cut src 0 minlen) := if_pos (by omega)
    have hcut : (cut src 0 minlen).length = minlen := length_cut (by omega)
    obtain ⟨r₀, hcopy, h₀⟩ := rewrites_write (f := fun i _ => src.getD i 0) (a := List.replicate maxlen 0) (p := 0) (t := cut src 0 minlen)
      (by omega) fun i hi => by rw [hcut] at hi; rw [getD_cut hi]
    have hlen₀ := h₀.length.trans hzeros
    obtain ⟨j, r₁, hloop, -, hj, h₁⟩ := fastLoop_spec op 0 minlen r₀ (by omega) fun s hs => (by have := hmin s hs; omega)
    obtain ⟨r₂, hbytes, h₂⟩ := byteLoop_spec op (src :: rest) (maxlen - j) j r₁ (by rw [h₁.length]; omega)
    rw [if_pos hfast, headD_cons, hread, bind_some, hcopy, bind_some, hloop, bind_some]
    refine hbytes.trans (congrArg some (eq_outputBytes (h₂.length.trans (h₁.length.trans hlen₀)) fun i hi => ?_))
    by_cases hlt : i < j
    · rw [h₂.outside i (Or.inl hlt), h₁.inside i (Nat.zero_le _) hlt, h₀.inside i (Nat.zero_le _) (by omega), outputByte_eq, headD_cons]
    · rw [h₂.inside i (by omega) (by omega)]
  · obtain ⟨res, hbytes, h⟩ := byteLoop_spec op srcs (maxlen - 0) 0 (List.replicate maxlen 0) (by omega)
    rw [if_neg hfast]
    exact hbytes.trans (congrArg some (eq_outputBytes (h.length.trans hzeros) fun i hi => h.inside i (Nat.zero_le _) (by omega)))

def contents (db : Sds → Option Obj) (key : Sds) : List UInt8 :=
  match db key with
  | some (.string o) => getDecodedObject o
  | some .other => []
  | none => []

def longest (srcs : List (List UInt8)) : ℕ := (srcs.map List.length).foldr max 0

theorem longest_append (srcs : List (List UInt8)) (s : List UInt8) : longest (srcs ++ [s]) = max (longest srcs) s.length := by
  induction srcs with
  | nil => rw [nil_append, longest, longest, map_singleton, foldr_cons, map_nil, foldr_nil, Nat.max_comm]
  | cons t srcs ih =>
    have hcons : ∀ l, longest (t :: l) = max t.length (longest l) := fun _ => rfl
    rw [cons_append, hcons, hcons, ih, Nat.max_assoc]

theorem le_longest (h : s ∈ srcs) : s.length ≤ longest srcs := by
  induction srcs with
  | nil => exact absurd h not_mem_nil
  | cons t srcs ih =>
    have hcons : longest (t :: srcs) = max t.length (longest srcs) := rfl
    rcases mem_cons.1 h with rfl | h
    · exact hcons ▸ Nat.le_max_left _ _
    · exact hcons ▸ (ih h).trans (Nat.le_max_right _ _)

/-- **The sources**: all contents, the longest length, and a length that all of them have. -/
theorem lookupSources_spec (db : Sds → Option Obj) : ∀ (keys : List Sds) (src : List (List UInt8)) (minlen : ℕ), (∀ key ∈ keys, db key ≠ some .other) →
    (∀ s ∈ src, minlen ≤ s.length) → ∃ minlen', lookupSources db keys src.length src (longest src) minlen =
      some (src ++ keys.map (contents db), longest (src ++ keys.map (contents db)), minlen') ∧ ∀ s ∈ src ++ keys.map (contents db), minlen' ≤ s.length := by
  intro keys
  induction keys with
  | nil =>
    intro src minlen _ hmin
    refine ⟨minlen, ?_, ?_⟩
    · rw [lookupSources, map_nil, append_nil]
    · rwa [map_nil, append_nil]
  | cons key keys ih =>
    intro src minlen hkeys hmin
    obtain ⟨hkey, hkeys⟩ := forall_mem_cons.1 hkeys
    have hlen : ∀ s : List UInt8, (src ++ [s]).length = src.length + 1 := fun s => length_append
    have hcons : src ++ (key :: keys).map (contents db) = src ++ [contents db key] ++ keys.map (contents db) := by
      rw [map_cons, append_assoc, singleton_append]
    rw [lookupSources, hcons]
    cases hdb : db key with
    | none =>
      have hempty : contents db key = [] := by rw [contents, hdb]
      obtain ⟨minlen', hlookup, hmin'⟩ := ih (src ++ [[]]) 0 hkeys fun s _ => Nat.zero_le _
      rw [hlen, longest_append, length_nil, Nat.max_zero] at hlookup
      rw [hempty]
      exact ⟨minlen', hlookup, hmin'⟩
    | some o =>
      cases o with
      | other => exact absurd hdb hkey
      | string o =>
        have hstring : contents db key = getDecodedObject o := by rw [contents, hdb]
        have hnext : ∀ s ∈ src ++ [getDecodedObject o],
            (if src.length = 0 ∨ (getDecodedObject o).length < minlen then (getDecodedObject o).length else minlen) ≤ s.length := by
          intro s hs
          rcases mem_append.1 hs with hs | hs
          · have hle := hmin s hs
            have hpos : src.length ≠ 0 := fun h0 => absurd (length_eq_zero_iff.1 h0 ▸ hs) not_mem_nil
            split <;> omega
          · rw [mem_singleton.1 hs]
            split <;> omega
        obtain ⟨minlen', hlookup, hmin'⟩ := ih _ _ hkeys hnext
        have hmax : max (longest src) (getDecodedObject o).length = if longest src < (getDecodedObject o).length then (getDecodedObject o).length else longest src := by
          split <;> omega
        rw [hlen, longest_append, hmax] at hlookup
        rw [hstring]
        exact ⟨minlen', hlookup, hmin'⟩

/-- What a byte of the result should be, from the bytes of all sources. -/
@[grind =] def Op.all : Op → List UInt8 → UInt8
  | and, bytes => bytes.foldr (· &&& ·) 255
  | or, bytes => bytes.foldr (· ||| ·) 0
  | xor, bytes => bytes.foldr (· ^^^ ·) 0
  | not, bytes => ~~~(bytes.headD 0)

/-- **What BITOP should store.** -/
def Op.string (op : Op) (srcs : List (List UInt8)) : List UInt8 := (List.range (longest srcs)).map fun i => op.all (srcs.map fun s => s.getD i 0)

theorem foldl_eq_foldr {h : UInt8 → UInt8 → UInt8} {e : UInt8} (hassoc : ∀ x y z, h (h x y) z = h x (h y z)) (hunit : ∀ x, h x e = x) :
    ∀ (l : List UInt8) (x : UInt8), l.foldl h x = (x :: l).foldr h e
  | [], x => (hunit x).symm
  | y :: l, x => by
    rw [foldl_cons, foldl_eq_foldr hassoc hunit l (h x y)]
    exact hassoc x y _

theorem outputFrom_eq (op : Op) (srcs : List (List UInt8)) (i : ℕ) (x : UInt8) : outputFrom op srcs i x = (srcs.map fun s => s.getD i 0).foldl op.byte x :=
  foldl_map.symm

/-- **The output is the operation over all sources.** -/
theorem outputByte_all (op : Op) (hsrcs : srcs ≠ []) (i : ℕ) : outputByte op srcs i = op.all (srcs.map fun s => s.getD i 0) := by
  obtain ⟨src, rest, rfl⟩ := exists_cons_of_ne_nil hsrcs
  rw [outputByte_eq, output, outputFrom_eq, headD_cons, tail_cons, map_cons]
  cases op with
  | and => exact foldl_eq_foldr UInt8.and_assoc (fun x => UInt8.and_neg_one) _ _
  | or => exact foldl_eq_foldr UInt8.or_assoc (fun x => UInt8.or_zero) _ _
  | xor => exact foldl_eq_foldr UInt8.xor_assoc (fun x => UInt8.xor_zero) _ _
  | not =>
    rw [if_pos rfl, ← outputFrom_eq, outputFrom_not]
    rfl

def stored (s : List UInt8) : Option Obj := if s = [] then none else some (.string (.raw s))

/-- **The result is what should be stored**, whatever the fast path is given as the shortest length. -/
theorem bitopResult_string (op : Op) (hsrcs : srcs ≠ []) (hmin : ∀ src ∈ srcs, minlen ≤ src.length) :
    bitopResult op srcs (longest srcs) minlen = some (op.string srcs) := by
  obtain ⟨src, hsrc⟩ := exists_mem_of_ne_nil srcs hsrcs
  rw [bitopResult_spec op hsrcs hmin ((hmin src hsrc).trans (le_longest hsrc)), outputBytes, Op.string]
  exact congrArg some (map_congr_left fun i _ => outputByte_all op hsrcs i)

/-- **BITOP**: the target holds the operation over all sources, and the reply is its length. -/
theorem bitopCommand_spec {opname : Sds} (hop : parseOp opname = some op) (targetkey : Sds) {keys : List Sds} (hnot : op = .not → keys.length = 1)
    {db : Sds → Option Obj} (htypes : ∀ key ∈ keys, db key ≠ some .other) :
    bitopCommand opname targetkey keys db = some (Function.update db targetkey (stored (op.string (keys.map (contents db)))),
      .integer (op.string (keys.map (contents db))).length) := by
  obtain ⟨minlen, hlookup, hmin⟩ := lookupSources_spec db keys [] 0 htypes fun s hs => absurd hs not_mem_nil
  have hlookup : lookupSources db keys 0 [] 0 0 = some (keys.map (contents db), longest (keys.map (contents db)), minlen) := hlookup
  have hlen : (op.string (keys.map (contents db))).length = longest (keys.map (contents db)) := by rw [Op.string, length_map, length_range]
  have hnot' : ¬ (op = .not ∧ keys.length ≠ 1) := fun h => h.2 (hnot h.1)
  rw [bitopCommand, hop]
  dsimp only
  rw [if_neg hnot', hlookup]
  dsimp only
  rw [hlen, stored]
  by_cases hpos : 0 < longest (keys.map (contents db))
  · have hsrcs : keys.map (contents db) ≠ [] := fun h => absurd hpos (by rw [h]; exact Nat.lt_irrefl 0)
    have hstring : op.string (keys.map (contents db)) ≠ [] := fun h => by
      rw [h, length_nil] at hlen
      omega
    rw [if_pos hpos, bitopResult_string op hsrcs hmin, map_some, if_neg hstring]
  · have hstring : op.string (keys.map (contents db)) = [] := length_eq_zero_iff.1 (by omega)
    rw [if_neg hpos, if_pos hstring]

/-- **BITOP is byte by byte, and popcount counts bits**: the target holds the operation over all sources, the fast path gives the bytes of the byte loop,
and the bits of the first bytes are counted. -/
theorem bitop_popcount {opname : Sds} {op : Op} (hop : parseOp opname = some op) (targetkey : Sds) {keys : List Sds} (hnot : op = .not → keys.length = 1)
    {db : Sds → Option Obj} (htypes : ∀ key ∈ keys, db key ≠ some .other) {srcs : List (List UInt8)} {minlen : ℕ} (hsrcs : srcs ≠ [])
    (hmin : ∀ src ∈ srcs, minlen ≤ src.length) {s : List UInt8} {n : ℕ} (hn : n ≤ s.length) :
    bitopCommand opname targetkey keys db = some (Function.update db targetkey (stored (op.string (keys.map (contents db)))),
        .integer (op.string (keys.map (contents db))).length) ∧
      bitopResult op srcs (longest srcs) minlen = byteLoop op srcs (longest srcs) 0 (List.replicate (longest srcs) 0) ∧
      popcount s n = some (onesIn (s.take n)) := by
  refine ⟨bitopCommand_spec hop targetkey hnot htypes, ?_, popcount_spec s n hn⟩
  have hslow : bitopResult op srcs (longest srcs) 0 = byteLoop op srcs (longest srcs) 0 (List.replicate (longest srcs) 0) := by
    rw [bitopResult, if_neg fun h => Nat.lt_irrefl 0 h.1]
  rw [← hslow, bitopResult_string op hsrcs hmin, bitopResult_string op hsrcs fun _ _ => Nat.zero_le _]

def shortKey (b : UInt8) : Sds := ⟨[b], by simp⟩

def twoStrings (key : Sds) : Option Obj :=
  if key = shortKey 97 then some (.string (.raw (List.replicate 40 240))) else if key = shortKey 98 then some (.string (.raw (List.replicate 33 60))) else none

theorem bitop_popcount_two : bitopCommand ⟨[65, 110, 100], by simp⟩ (shortKey 99) [shortKey 97, shortKey 98] twoStrings =
        some (Function.update twoStrings (shortKey 99) (stored (List.replicate 33 48 ++ List.replicate 7 0)), .integer 40) ∧
      bitopResult .and [List.replicate 40 240, List.replicate 33 60] 40 33 =
        byteLoop .and [List.replicate 40 240, List.replicate 33 60] 40 0 (List.replicate 40 0) ∧
      popcount (List.replicate 20 7) 17 = some 51 := by
  have hop : parseOp ⟨[65, 110, 100], by simp⟩ = some .and := by decide
  have htypes : ∀ key ∈ [shortKey 97, shortKey 98], twoStrings key ≠ some .other := by decide
  have hmin : ∀ src ∈ ([List.replicate 40 240, List.replicate 33 60] : List (List UInt8)), 33 ≤ src.length := by decide
  have hstring : Op.and.string ([shortKey 97, shortKey 98].map (contents twoStrings)) = List.replicate 33 48 ++ List.replicate 7 0 := by decide
  have h := bitop_popcount hop (shortKey 99) (fun h => by cases h) htypes (cons_ne_nil _ _) hmin (show 17 ≤ (List.replicate 20 (7 : UInt8)).length by decide)
  exact h

end KVStores.Redis.Bitops
