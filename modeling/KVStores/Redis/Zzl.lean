import KVStores.Redis.SortedSet

/-!
# Sorted sets in ziplists

The functions of Redis for sorted sets in ziplists (`t_zset.c`), with ziplists as the lists of their
entries: a member, its score, the next member. A pointer to an entry is its index.

A failed assertion is a fault (`none`).
-/

namespace KVStores.Redis

open List Option

inductive ZipEntry
  | str (s : List UInt8)
  | int (v : Long)
deriving DecidableEq

def zipTryEncoding (entry : List UInt8) : Option Long := if 32 ≤ entry.length ∨ entry.length = 0 then none else string2ll entry

/-- The entry that `ziplistPush` and `ziplistInsert` make. -/
def zipEntry (s : List UInt8) : ZipEntry := (zipTryEncoding s).elim (.str s) .int

/-- The bytes of `ziplistGet`, an integer as its numeral. -/
def ZipEntry.bytes : ZipEntry → List UInt8
  | .str s => s
  | .int v => ll2string v.1

def ziplistCompare : ZipEntry → List UInt8 → Bool
  | .str s, t => decide (s = t)
  | .int v, t => decide (zipTryEncoding t = some v)

def ziplistNext (zl : List ZipEntry) (p : ℕ) : Option ℕ := if p + 1 < zl.length then some (p + 1) else none

def ziplistPrev (p : ℕ) : Option ℕ := if p = 0 then none else some (p - 1)

def ziplistDeleteRange (zl : List ZipEntry) (index num : ℕ) : List ZipEntry := zl.take index ++ zl.drop (index + num)

theorem zipTryEncoding_numeral {s : List UInt8} {v : Long} (h : zipTryEncoding s = some v) : s = ll2string v.1 := by
  unfold zipTryEncoding at h
  by_cases hlen : 32 ≤ s.length ∨ s.length = 0
  · rw [if_pos hlen] at h
    cases h
  · rw [if_neg hlen] at h
    exact string2ll_iff.1 h

theorem zipEntry_bytes (s : List UInt8) : (zipEntry s).bytes = s := by
  unfold zipEntry
  cases h : zipTryEncoding s with
  | none => rfl
  | some v => exact (zipTryEncoding_numeral h).symm

theorem ziplistCompare_iff {s t : List UInt8} : ziplistCompare (zipEntry s) t = true ↔ s = t := by
  unfold zipEntry
  cases h : zipTryEncoding s with
  | none => exact decide_eq_true_iff
  | some v =>
    refine decide_eq_true_iff.trans ⟨fun ht => ?_, fun hst => hst ▸ h⟩
    rw [zipTryEncoding_numeral h, zipTryEncoding_numeral ht]

/-- How scores are printed (`d2string`) and read (`strtod`), and what score an integer is. -/
structure ScoreFormat (S : Type) where
  d2string : S → List UInt8
  strtod : List UInt8 → S
  ofLong : Long → S

variable {S : Type}

def zzlGetScore (fmt : ScoreFormat S) : ZipEntry → S
  | .str s => fmt.strtod s
  | .int v => fmt.ofLong v

def ScoreFormat.Reads (fmt : ScoreFormat S) : Prop := ∀ s, zzlGetScore fmt (zipEntry (fmt.d2string s)) = s

def zzlCompareElements (e : ZipEntry) (cstr : List UInt8) : ℤ := sdscmp e.bytes cstr

def zzlLength (zl : List ZipEntry) : ℕ := zl.length / 2

def zzlNext (zl : List ZipEntry) (p : ℕ × ℕ) : Option (Option (ℕ × ℕ)) :=
  match ziplistNext zl p.2 with
  | none => some none
  | some eptr => (ziplistNext zl eptr).map fun sptr => some (eptr, sptr)

def zzlPrev (p : ℕ × ℕ) : Option (Option (ℕ × ℕ)) :=
  match ziplistPrev p.1 with
  | none => some none
  | some sptr => (ziplistPrev sptr).map fun eptr => some (eptr, sptr)

/-- The loop of `zzlFind`; the score with the pointer. -/
@[grind =] def zzlFindLoop (fmt : ScoreFormat S) (ele : List UInt8) : ℕ → List ZipEntry → Option (Option (ℕ × S))
  | _, [] => some none
  | _, [_] => none
  | i, e :: s :: zl => if ziplistCompare e ele then some (some (i, zzlGetScore fmt s)) else zzlFindLoop fmt ele (i + 2) zl

def zzlFind (fmt : ScoreFormat S) (zl : List ZipEntry) (ele : List UInt8) : Option (Option (ℕ × S)) := zzlFindLoop fmt ele 0 zl

def zzlDelete (zl : List ZipEntry) (eptr : ℕ) : List ZipEntry := (zl.eraseIdx eptr).eraseIdx eptr

/-- `zzlInsertAt` in front of the entries from the pointer on. -/
def zzlInsertAt (fmt : ScoreFormat S) (rest : List ZipEntry) (ele : List UInt8) (score : S) : List ZipEntry :=
  zipEntry ele :: zipEntry (fmt.d2string score) :: rest

variable [LinearOrder S]

@[grind =] def zzlInsert (fmt : ScoreFormat S) (ele : List UInt8) (score : S) : List ZipEntry → Option (List ZipEntry)
  | [] => some (zzlInsertAt fmt [] ele score)
  | [_] => none
  | e :: s :: zl =>
    if score < zzlGetScore fmt s then some (zzlInsertAt fmt (e :: s :: zl) ele score)
    else if zzlGetScore fmt s = score ∧ 0 < zzlCompareElements e ele then some (zzlInsertAt fmt (e :: s :: zl) ele score)
    else (zzlInsert fmt ele score zl).map fun zl => e :: s :: zl

def zzlIsInRange (fmt : ScoreFormat S) (zl : List ZipEntry) (range : Zrangespec S) : Option Bool :=
  if rangeEmpty range then some false
  else
    match zl.getLast? with
    | none => some false
    | some p =>
      if zslValueGteMin (zzlGetScore fmt p) range then zl[1]?.map fun p => zslValueLteMax (zzlGetScore fmt p) range
      else some false

@[grind =] def zzlFirstLoop (fmt : ScoreFormat S) (range : Zrangespec S) : ℕ → List ZipEntry → Option (Option ℕ)
  | _, [] => some none
  | _, [_] => none
  | i, _ :: s :: zl =>
    if zslValueGteMin (zzlGetScore fmt s) range then some (if zslValueLteMax (zzlGetScore fmt s) range then some i else none)
    else zzlFirstLoop fmt range (i + 2) zl

def zzlFirstInRange (fmt : ScoreFormat S) (zl : List ZipEntry) (range : Zrangespec S) : Option (Option ℕ) :=
  (zzlIsInRange fmt zl range).bind fun inside => if inside then zzlFirstLoop fmt range 0 zl else some none

/-- The loop of `zzlLastInRange`, over the entries from the last one on. -/
@[grind =] def zzlLastLoop (fmt : ScoreFormat S) (range : Zrangespec S) : List ZipEntry → Option (Option ℕ)
  | [] => some none
  | [_] => none
  | s :: _ :: zl =>
    if zslValueLteMax (zzlGetScore fmt s) range then some (if zslValueGteMin (zzlGetScore fmt s) range then some zl.length else none)
    else zzlLastLoop fmt range zl

def zzlLastInRange (fmt : ScoreFormat S) (zl : List ZipEntry) (range : Zrangespec S) : Option (Option ℕ) :=
  (zzlIsInRange fmt zl range).bind fun inside => if inside then zzlLastLoop fmt range zl.reverse else some none

/-- The loop of `zzlDeleteRangeByScore`: how many members are deleted, and the entries behind them. -/
@[grind =] def zzlDeleteLoop (fmt : ScoreFormat S) (range : Zrangespec S) : List ZipEntry → ℕ × List ZipEntry
  | e :: s :: zl =>
    if zslValueLteMax (zzlGetScore fmt s) range then ((zzlDeleteLoop fmt range zl).1 + 1, (zzlDeleteLoop fmt range zl).2) else (0, e :: s :: zl)
  | zl => (0, zl)

def zzlDeleteRangeByScore (fmt : ScoreFormat S) (zl : List ZipEntry) (range : Zrangespec S) : Option (ℕ × List ZipEntry) :=
  (zzlFirstInRange fmt zl range).map fun eptr =>
    match eptr with
    | none => (0, zl)
    | some i => ((zzlDeleteLoop fmt range (zl.drop i)).1, zl.take i ++ (zzlDeleteLoop fmt range (zl.drop i)).2)

def zzlDeleteRangeByRank (zl : List ZipEntry) (start stop : ℕ) : ℕ × List ZipEntry :=
  (stop - start + 1, ziplistDeleteRange zl (2 * (start - 1)) (2 * (stop - start + 1)))

variable {fmt : ScoreFormat S} {l la lb : List (Member S)} {e : Member S} {m : List UInt8} {s : S} {range : Zrangespec S}

omit [LinearOrder S] in
@[grind =] def zzlEntries (fmt : ScoreFormat S) : List (Member S) → List ZipEntry
  | [] => []
  | e :: l => zipEntry e.2 :: zipEntry (fmt.d2string e.1) :: zzlEntries fmt l

section Entries

omit [LinearOrder S]

theorem zzlEntries_append : zzlEntries fmt (la ++ lb) = zzlEntries fmt la ++ zzlEntries fmt lb := by
  induction la with
  | nil => rfl
  | cons a la ih => rw [cons_append, zzlEntries, zzlEntries, ih, cons_append, cons_append]

variable (fmt l) in
theorem zzlEntries_length : (zzlEntries fmt l).length = 2 * l.length := by
  induction l with
  | nil => rfl
  | cons a l ih =>
    rw [zzlEntries, length_cons, length_cons, length_cons, ih]
    omega

theorem zzlLength_entries : zzlLength (zzlEntries fmt l) = l.length := by
  rw [zzlLength, zzlEntries_length]
  omega

theorem zzlEntries_take : (zzlEntries fmt (la ++ lb)).take (2 * la.length) = zzlEntries fmt la := by
  rw [zzlEntries_append, ← zzlEntries_length fmt la, take_left]

theorem zzlEntries_drop : (zzlEntries fmt (la ++ lb)).drop (2 * la.length) = zzlEntries fmt lb := by
  rw [zzlEntries_append, ← zzlEntries_length fmt la, drop_left]

theorem zzlEntries_at : (zzlEntries fmt (la ++ e :: lb))[2 * la.length]? = some (zipEntry e.2) ∧
    (zzlEntries fmt (la ++ e :: lb))[2 * la.length + 1]? = some (zipEntry (fmt.d2string e.1)) := by
  rw [zzlEntries_append, ← zzlEntries_length fmt la, List.getElem?_append_right (le_refl _), List.getElem?_append_right (Nat.le_add_right _ 1),
    Nat.sub_self, Nat.add_sub_cancel_left]
  exact ⟨rfl, rfl⟩

theorem zzlDelete_spec : zzlDelete (zzlEntries fmt (la ++ e :: lb)) (2 * la.length) = zzlEntries fmt (la ++ lb) := by
  rw [zzlDelete, zzlEntries_append, zzlEntries_append, ← zzlEntries_length fmt la, eraseIdx_append_of_length_le (le_refl _), Nat.sub_self,
    eraseIdx_append_of_length_le (le_refl _), Nat.sub_self]
  rfl

theorem zzlFindLoop_spec (hla : m ∉ la.map Prod.snd) : ∀ i,
    zzlFindLoop fmt m i (zzlEntries fmt la ++ zzlEntries fmt lb) = zzlFindLoop fmt m (i + 2 * la.length) (zzlEntries fmt lb) := by
  induction la with
  | nil =>
    intro i
    rfl
  | cons a la ih =>
    intro i
    obtain ⟨hne, hmem⟩ := not_or.1 (fun h => hla (mem_cons.2 h))
    have hno : ziplistCompare (zipEntry a.2) m = false := by
      rw [Bool.eq_false_iff, ne_eq, ziplistCompare_iff]
      exact fun h => hne h.symm
    rw [zzlEntries, cons_append, cons_append, zzlFindLoop, hno, if_neg Bool.false_ne_true, ih hmem, length_cons]
    congr 1
    omega

/-- **A member that is there.** -/
theorem zzlFind_mem (hread : fmt.Reads) (hla : e.2 ∉ la.map Prod.snd) :
    zzlFind fmt (zzlEntries fmt (la ++ e :: lb)) e.2 = some (some (2 * la.length, e.1)) := by
  rw [zzlFind, zzlEntries_append, zzlFindLoop_spec hla, zzlEntries, zzlFindLoop, ziplistCompare_iff.2 rfl, if_pos rfl, hread, Nat.zero_add]

theorem zzlFind_not_mem (hl : m ∉ l.map Prod.snd) : zzlFind fmt (zzlEntries fmt l) m = some none := by
  have h : zzlFindLoop fmt m 0 (zzlEntries fmt l ++ zzlEntries fmt []) = some none := zzlFindLoop_spec hl 0
  rwa [zzlEntries, append_nil] at h

theorem zzlCompareElements_pos : 0 < zzlCompareElements (zipEntry e.2) m ↔ ordBytes m < ordBytes e.2 := by
  obtain ⟨h1, h2⟩ := sdscmp_spec e.2 m
  rw [zzlCompareElements, zipEntry_bytes]
  have hlt : 0 < sdscmp e.2 m ↔ ¬ (ordBytes e.2 < ordBytes m ∨ ordBytes e.2 = ordBytes m) := by
    rw [← h1, show ordBytes e.2 = ordBytes m ↔ sdscmp e.2 m = 0 from ⟨fun h => h2.2 (ordBytes_injective h), fun h => congrArg ordBytes (h2.1 h)⟩]
    omega
  rw [hlt, ← le_iff_lt_or_eq, not_le]

end Entries

theorem zzlInsert_spec (hread : fmt.Reads) (hbefore : ∀ a ∈ la, memberKey a < memberKey (s, m)) (hbehind : ∀ b ∈ lb, memberKey (s, m) < memberKey b) :
    zzlInsert fmt m s (zzlEntries fmt (la ++ lb)) = some (zzlEntries fmt (la ++ (s, m) :: lb)) := by
  induction la with
  | nil =>
    cases lb with
    | nil => rfl
    | cons b lb =>
      rw [nil_append, nil_append, zzlEntries, zzlInsert, hread]
      rcases memberKey_lt.1 (hbehind b mem_cons_self) with h | ⟨h1, h2⟩
      · rw [if_pos h]
        rfl
      · have hlt : ¬ s < b.1 := not_lt.2 (le_of_eq h1.symm)
        rw [if_neg hlt, if_pos ⟨h1.symm, zzlCompareElements_pos.2 h2⟩]
        rfl
  | cons a la ih =>
    have hlt := hbefore a mem_cons_self
    have hno1 : ¬ s < a.1 := by
      rcases memberKey_lt.1 hlt with h | ⟨h, -⟩
      · exact not_lt.2 (le_of_lt h)
      · exact not_lt.2 (le_of_eq h)
    have hno2 : ¬ (a.1 = s ∧ 0 < zzlCompareElements (zipEntry a.2) m) := by
      rintro ⟨heq, hpos⟩
      rcases memberKey_lt.1 hlt with h | ⟨-, h⟩
      · exact absurd (heq ▸ h) (lt_irrefl _)
      · exact absurd (h.trans (zzlCompareElements_pos.1 hpos)) (lt_irrefl _)
    rw [cons_append, cons_append, zzlEntries, zzlInsert, hread, if_neg hno1, if_neg hno2, ih fun b hb => hbefore b (mem_cons_of_mem a hb)]
    rfl

variable {below inside above : List (Member S)}

omit [LinearOrder S] in
theorem zzlEntries_concat : zzlEntries fmt (l ++ [e]) = zzlEntries fmt l ++ [zipEntry e.2, zipEntry (fmt.d2string e.1)] := zzlEntries_append

theorem zzlIsInRange_spec (hread : fmt.Reads) : zzlIsInRange fmt (zzlEntries fmt l) range = some (touches range l) := by
  unfold zzlIsInRange touches
  cases rangeEmpty range with
  | true => rfl
  | false =>
    rw [if_neg Bool.false_ne_true, Bool.not_false, Bool.true_and]
    rcases eq_nil_or_concat l with rfl | ⟨l', e, hl⟩
    · rfl
    rw [concat_eq_append] at hl
    have hlast : (zzlEntries fmt l).getLast? = some (zipEntry (fmt.d2string e.1)) := by
      rw [hl, zzlEntries_concat, List.getLast?_append]
      rfl
    have hlast' : l.getLast? = some e := by rw [hl, List.getLast?_append, List.getLast?_singleton, some_or]
    rw [hlast, hlast', any_some]
    dsimp only
    rw [hread]
    cases zslValueGteMin e.1 range with
    | false => rfl
    | true =>
      obtain ⟨a, rest, hfirst⟩ := exists_cons_of_ne_nil (hl ▸ append_ne_nil_of_right_ne_nil l' (cons_ne_nil e []))
      rw [if_pos rfl, hfirst, zzlEntries, List.getElem?_cons_succ, List.getElem?_cons_zero, map_some, hread, List.head?_cons, any_some,
        Bool.true_and]

theorem zzlFirstLoop_spec (hread : fmt.Reads) (h : RangeSplit range below inside above) : ∀ i,
    zzlFirstLoop fmt range i (zzlEntries fmt (below ++ inside ++ above)) = some (inside.head?.map fun _ => i + 2 * below.length) := by
  induction below with
  | nil =>
    intro i
    cases inside with
    | nil =>
      cases above with
      | nil => rfl
      | cons b above =>
        obtain ⟨hmin, hmax⟩ := h.above b mem_cons_self
        rw [nil_append, nil_append, zzlEntries, zzlFirstLoop, hread, hmin, if_pos rfl, hmax, if_neg Bool.false_ne_true]
        rfl
    | cons a inside =>
      obtain ⟨hmin, hmax⟩ := h.inside a mem_cons_self
      rw [nil_append, cons_append, zzlEntries, zzlFirstLoop, hread, hmin, if_pos rfl, hmax, if_pos rfl]
      rfl
  | cons a below ih =>
    intro i
    have hrest : RangeSplit range below inside above := ⟨fun e he => h.below e (mem_cons_of_mem a he), h.inside, h.above⟩
    rw [cons_append, cons_append, zzlEntries, zzlFirstLoop, hread, h.below a mem_cons_self, if_neg Bool.false_ne_true, ih hrest,
      length_cons]
    congr 2
    funext _
    omega

/-- **The first member in a range.** -/
theorem zzlFirstInRange_spec (hread : fmt.Reads) (h : RangeSplit range below inside above) :
    zzlFirstInRange fmt (zzlEntries fmt (below ++ inside ++ above)) range = some (inside.head?.map fun _ => 2 * below.length) := by
  rw [zzlFirstInRange, zzlIsInRange_spec hread, bind_some]
  cases htouch : touches range (below ++ inside ++ above) with
  | false =>
    rw [if_neg Bool.false_ne_true, h.touches.1 htouch]
    rfl
  | true => rw [if_pos rfl, zzlFirstLoop_spec hread h, Nat.zero_add]

theorem zzlLastLoop_above (hread : fmt.Reads) (habove : ∀ e ∈ above, zslValueLteMax e.1 range = false) :
    zzlLastLoop fmt range (zzlEntries fmt (l ++ above)).reverse = zzlLastLoop fmt range (zzlEntries fmt l).reverse := by
  induction above using List.reverseRecOn with
  | nil => rw [append_nil]
  | append_singleton above e ih =>
    rw [← append_assoc, zzlEntries_concat, reverse_append]
    change zzlLastLoop fmt range (zipEntry (fmt.d2string e.1) :: zipEntry e.2 :: (zzlEntries fmt (l ++ above)).reverse) = _
    rw [zzlLastLoop, hread, habove e (mem_append_right above mem_cons_self), if_neg Bool.false_ne_true]
    exact ih fun a ha => habove a (mem_append_left _ ha)

theorem zzlLastLoop_stop (hread : fmt.Reads) (hmax : zslValueLteMax e.1 range = true) :
    zzlLastLoop fmt range (zzlEntries fmt (l ++ [e])).reverse = some (if zslValueGteMin e.1 range then some (2 * l.length) else none) := by
  rw [zzlEntries_concat, reverse_append]
  change zzlLastLoop fmt range (zipEntry (fmt.d2string e.1) :: zipEntry e.2 :: (zzlEntries fmt l).reverse) = _
  rw [zzlLastLoop, hread, hmax, if_pos rfl, length_reverse, zzlEntries_length]

/-- **The last member in a range.** -/
theorem zzlLastInRange_spec (hread : fmt.Reads) (h : RangeSplit range below inside above) :
    zzlLastInRange fmt (zzlEntries fmt (below ++ inside ++ above)) range = some (inside.getLast?.map fun _ => 2 * (below.length + inside.length - 1)) := by
  rw [zzlLastInRange, zzlIsInRange_spec hread, bind_some]
  cases htouch : touches range (below ++ inside ++ above) with
  | false =>
    rw [if_neg Bool.false_ne_true, h.touches.1 htouch]
    rfl
  | true =>
    obtain ⟨hempty, -, hne⟩ := h.touches.2 htouch
    rw [if_pos rfl, zzlLastLoop_above hread fun e he => (h.above e he).2]
    rcases eq_nil_or_concat inside with rfl | ⟨inside, e, rfl⟩
    · rw [append_nil] at hne ⊢
      obtain ⟨below, e, rfl⟩ := (eq_nil_or_concat below).resolve_left hne
      rw [concat_eq_append] at h ⊢
      have hmin := h.below e (mem_append_right below mem_cons_self)
      rw [zzlLastLoop_stop hread (lteMax_of_below hempty hmin), hmin, if_neg Bool.false_ne_true]
      rfl
    · rw [concat_eq_append] at h ⊢
      obtain ⟨hmin, hmax⟩ := h.inside e (mem_append_right inside mem_cons_self)
      rw [← append_assoc, zzlLastLoop_stop hread hmax, hmin, if_pos rfl, List.getLast?_append, List.getLast?_singleton, some_or,
        map_some, length_append, length_append, length_singleton]
      rfl

theorem zzlDeleteLoop_spec (hread : fmt.Reads) (hinside : ∀ e ∈ inside, zslValueLteMax e.1 range = true)
    (habove : ∀ e ∈ above, zslValueLteMax e.1 range = false) :
    zzlDeleteLoop fmt range (zzlEntries fmt (inside ++ above)) = (inside.length, zzlEntries fmt above) := by
  induction inside with
  | nil =>
    cases above with
    | nil => rfl
    | cons b above =>
      rw [nil_append, zzlEntries, zzlDeleteLoop, hread, habove b mem_cons_self, if_neg Bool.false_ne_true]
      rfl
  | cons a inside ih =>
    rw [cons_append, zzlEntries, zzlDeleteLoop, hread, hinside a mem_cons_self, if_pos rfl, ih fun e he => hinside e (mem_cons_of_mem a he)]
    rfl

/-- **The members in a range of scores are deleted.** -/
theorem zzlDeleteRangeByScore_spec (hread : fmt.Reads) (h : RangeSplit range below inside above) :
    zzlDeleteRangeByScore fmt (zzlEntries fmt (below ++ inside ++ above)) range = some (inside.length, zzlEntries fmt (below ++ above)) := by
  rw [zzlDeleteRangeByScore, zzlFirstInRange_spec hread h, map_some]
  cases inside with
  | nil =>
    rw [append_nil]
    rfl
  | cons a inside =>
    rw [append_assoc]
    change some ((zzlDeleteLoop fmt range ((zzlEntries fmt (below ++ (a :: inside ++ above))).drop (2 * below.length))).1,
      (zzlEntries fmt (below ++ (a :: inside ++ above))).take (2 * below.length) ++
        (zzlDeleteLoop fmt range ((zzlEntries fmt (below ++ (a :: inside ++ above))).drop (2 * below.length))).2) = _
    rw [zzlEntries_drop, zzlEntries_take, zzlDeleteLoop_spec hread (fun e he => (h.inside e he).2) fun e he => (h.above e he).2, zzlEntries_append]

omit [LinearOrder S] in
/-- **The members between two ranks are deleted.** -/
theorem zzlDeleteRangeByRank_spec (hinside : inside ≠ []) :
    zzlDeleteRangeByRank (zzlEntries fmt (below ++ inside ++ above)) (below.length + 1) (below.length + inside.length) =
      (inside.length, zzlEntries fmt (below ++ above)) := by
  have hpos := length_pos_of_ne_nil hinside
  have hnum : below.length + inside.length - (below.length + 1) + 1 = inside.length := by omega
  have hstop : 2 * below.length + 2 * inside.length = 2 * (below ++ inside).length := by
    rw [length_append]
    omega
  rw [zzlDeleteRangeByRank, hnum, Nat.add_sub_cancel, ziplistDeleteRange, hstop, zzlEntries_drop, append_assoc, zzlEntries_take, zzlEntries_append]

end KVStores.Redis
