import KVStores.Redis.ZiplistInsert

/-!
# Walking through a ziplist

* `Holds.ok`: **what is read** from a block with some entries, and what its header says.
-/

namespace KVStores.Redis.Ziplist

open List Option

/-- The entries from `p` on. -/
@[grind =] def walk (next : ℕ → Except ZipFault (Option ℕ)) (get : ℕ → Except ZipFault (Option (List UInt8))) : ℕ → Option ℕ → Except ZipFault (List (List UInt8))
  | _, none => .ok []
  | 0, some _ => .error .stuck
  | fuel + 1, some p =>
    (get p).bind fun s => s.elim (.ok []) fun s => (next p).bind fun q => (walk next get fuel q).bind fun l => .ok (s :: l)

def forwards (zl : List UInt8) : Except ZipFault (List (List UInt8)) :=
  (ziplistIndex zl 0).bind (walk (ziplistNext zl) (ziplistGet zl) zl.length)

def backwards (zl : List UInt8) : Except ZipFault (List (List UInt8)) :=
  (ziplistIndex zl (-1)).bind (walk (ziplistPrev zl) (ziplistGet zl) zl.length)

/-- The entry `i`, or the end byte. -/
def pointer (zl : List UInt8) (i : ℕ) : Except ZipFault ℕ := (indexForward zl ziplistHeaderSize i).bind fun r => .ok r.1

/-- **A block that has the strings** `l`, and says so in its header. -/
structure ZipOk (zl : List UInt8) (l : List (List UInt8)) : Prop where
  forward : forwards zl = .ok l
  backward : backwards zl = .ok l.reverse
  bytes : ziplistBytes zl = zl.length
  /-- The end byte is the last one, and the walk from the head gets there. -/
  last : zl.getLast? = some zipEnd ∧ pointer zl l.length = .ok (zl.length - 1)
  tail : pointer zl (l.length - 1) = .ok (ziplistTailOffset zl)
  count : ziplistLength zl = l.length ∨ ziplistLength zl = 65535

variable {prev b t n p : ℕ} {l la lb lr : List ZipItem} {it : ZipItem} {body zl : List UInt8}

theorem indexForward_spec : ∀ {l : List ZipItem} {prev p : ℕ} {body : List UInt8} (index : ℕ), ChainOk prev l → p = body.length →
    indexForward (body ++ (chain prev l ++ [zipEnd])) p index = .ok (p + size (l.take index), index - l.length) := by
  intro l
  induction l with
  | nil =>
    intro prev p body index h hp
    cases index with
    | zero => rfl
    | succ index =>
      obtain ⟨x, h1, h2⟩ := byteAt_chain h hp
      rw [indexForward, h1, ok_bind, if_pos (h2.2 rfl)]
      rfl
  | cons it l ih =>
    intro prev p body index h hp
    cases index with
    | zero => rw [indexForward, take_zero, size_nil, Nat.zero_sub]; rfl
    | succ index =>
      obtain ⟨hit, hl⟩ := h
      obtain ⟨x, hx, h1⟩ := byteAt_item (a := body) (c := chain it.rawLen l ++ [zipEnd]) hit
      have h2 := zipRawEntryLength_item (a := body) (c := chain it.rawLen l ++ [zipEnd]) hit
      have hcut : body ++ (chain prev (it :: l) ++ [zipEnd]) = body ++ (it.bytes prev ++ (chain it.rawLen l ++ [zipEnd])) := by
        rw [chain, append_assoc]
      rw [hcut, indexForward, hp, h1, ok_bind, if_neg hx, h2, ok_bind, ← append_assoc, ih index hl length_bytes.symm,
        take_succ_cons, size_cons, length_cons, Nat.add_sub_add_right, Nat.add_assoc]

theorem block_at (b t n : ℕ) (la : List ZipItem) (it : ZipItem) (lb : List ZipItem) : header b t n ++ (chain 0 (la ++ it :: lb) ++ [zipEnd]) =
    header b t n ++ chain 0 la ++ (it.bytes (lastLen 0 la) ++ (chain it.rawLen lb ++ [zipEnd])) := by
  rw [chain_append, chain]
  simp only [append_assoc]

theorem place_at (b t n : ℕ) (la : List ZipItem) : 10 + size la = (header b t n ++ chain 0 la).length := by
  rw [length_append, header_length, chain_length]

theorem indexBackward_spec : ∀ {la : List ZipItem} {it : ZipItem} {lb : List ZipItem} (index : ℕ), ChainOk 0 (la ++ it :: lb) →
    indexBackward (header b t n ++ (chain 0 (la ++ it :: lb) ++ [zipEnd])) (10 + size la) index =
      .ok (10 + size (la.take (la.length - index)), index - la.length) := by
  intro la
  induction la using List.reverseRecOn with
  | nil =>
    intro it lb index h
    obtain ⟨e, h1, -, h2, -⟩ := zipEntry_item (a := header b t n ++ chain 0 []) (c := chain it.rawLen lb ++ [zipEnd]) h.1
    rw [block_at, place_at b t n []]
    cases index with
    | zero =>
      rw [indexBackward, lastLen, h1, ok_bind, ← place_at]
      rfl
    | succ index =>
      rw [indexBackward, lastLen, h1, ok_bind, h2, if_neg (lt_irrefl _), ← place_at, take_nil, length_nil, Nat.sub_zero]
  | append_singleton la y ih =>
    intro it lb index h
    obtain ⟨e, h1, -, h2, -⟩ := zipEntry_item (a := header b t n ++ chain 0 (la ++ [y])) (c := chain it.rawLen lb ++ [zipEnd]) (chainOk_append.1 h).2.1
    rw [← block_at, ← place_at] at h1
    have hlast : lastLen 0 (la ++ [y]) = y.rawLen := lastLen_append la [y] 0
    have hge := y.rawLen_ge
    rw [hlast] at h2
    cases index with
    | zero =>
      rw [indexBackward, h1, ok_bind, Nat.sub_zero, take_length, Nat.zero_sub]
    | succ index =>
      have hassoc : la ++ [y] ++ it :: lb = la ++ y :: it :: lb := by rw [append_assoc, singleton_append]
      have hplace : 10 + size (la ++ [y]) - y.rawLen = 10 + size la := by
        rw [size_append, size_cons, size_nil]
        omega
      have hlen : (la ++ [y]).length = la.length + 1 := by rw [length_append, length_singleton]
      rw [indexBackward, h1, ok_bind, h2, if_pos (by omega), hplace, hassoc, ih index (hassoc ▸ h), hlen, Nat.add_sub_add_right,
        Nat.add_sub_add_right, take_append_of_le_length (Nat.sub_le _ _)]

theorem ziplistNext_spec (h : ChainOk 0 (la ++ it :: lb)) : Ziplist.ziplistNext (header b t n ++ (chain 0 (la ++ it :: lb) ++ [zipEnd])) (10 + size la) =
    .ok (if lb = [] then none else some (10 + size (la ++ [it]))) := by
  obtain ⟨-, hit, hlb⟩ := chainOk_append.1 h
  obtain ⟨x, hx, h1⟩ := byteAt_item (a := header b t n ++ chain 0 la) (c := chain it.rawLen lb ++ [zipEnd]) hit
  have h2 := zipRawEntryLength_item (a := header b t n ++ chain 0 la) (c := chain it.rawLen lb ++ [zipEnd]) hit
  rw [← block_at, ← place_at] at h1 h2
  have hplace : 10 + size la + it.rawLen = (header b t n ++ chain 0 (la ++ [it])).length := by
    rw [← place_at, size_append, size_cons, size_nil]
    omega
  have hblock : header b t n ++ (chain 0 (la ++ it :: lb) ++ [zipEnd]) = header b t n ++ chain 0 (la ++ [it]) ++ (chain it.rawLen lb ++ [zipEnd]) := by
    rw [block_at, chain_append, chain]
    simp only [append_assoc, chain, append_nil]
  obtain ⟨y, h3, h4⟩ := byteAt_chain hlb hplace
  rw [← hblock] at h3
  rw [Ziplist.ziplistNext, h1, ok_bind, if_neg hx, h2, ok_bind, h3, ok_bind, hplace, ← place_at]
  by_cases hnil : lb = []
  · rw [if_pos (h4.2 hnil), if_pos hnil]
  · rw [if_neg fun hy => hnil (h4.1 hy), if_neg hnil]

theorem ziplistPrev_spec (h : ChainOk 0 (la ++ it :: lb)) : Ziplist.ziplistPrev (header b t n ++ (chain 0 (la ++ it :: lb) ++ [zipEnd])) (10 + size la) =
    .ok (if la = [] then none else some (10 + size la.dropLast)) := by
  obtain ⟨-, hit, -⟩ := chainOk_append.1 h
  obtain ⟨x, hx, h1⟩ := byteAt_item (a := header b t n ++ chain 0 la) (c := chain it.rawLen lb ++ [zipEnd]) hit
  obtain ⟨e, h2, -, h3, -⟩ := zipEntry_item (a := header b t n ++ chain 0 la) (c := chain it.rawLen lb ++ [zipEnd]) hit
  rw [← block_at, ← place_at] at h1 h2
  rw [Ziplist.ziplistPrev, h1, ok_bind, if_neg hx]
  by_cases hnil : la = []
  · subst hnil
    rfl
  · have hpos := size_pos hnil
    have hlast := size_last la
    obtain ⟨l', y, rfl⟩ := (eq_nil_or_concat la).resolve_left hnil
    rw [concat_eq_append] at hpos hlast h2 h3 ⊢
    have hlen : lastLen 0 (l' ++ [y]) = y.rawLen := lastLen_append l' [y] 0
    have hge := y.rawLen_ge
    have hten : ziplistHeaderSize = 10 := rfl
    rw [if_neg (by omega), h2, ok_bind, h3, if_pos (by omega), if_neg (by simp)]
    congr 2
    omega

theorem ziplistGet_at (h : ChainOk 0 (la ++ it :: lb)) : ziplistGet (header b t n ++ (chain 0 (la ++ it :: lb) ++ [zipEnd])) (10 + size la) = .ok (some it.str) := by
  rw [block_at, place_at b t n]
  exact ziplistGet_item (chainOk_append.1 h).2.1

theorem walk_forward : ∀ {lb la : List ZipItem} {it : ZipItem} {fuel : ℕ}, ChainOk 0 (la ++ it :: lb) → lb.length < fuel →
    walk (Ziplist.ziplistNext (header b t n ++ (chain 0 (la ++ it :: lb) ++ [zipEnd]))) (ziplistGet (header b t n ++ (chain 0 (la ++ it :: lb) ++ [zipEnd])))
      fuel (some (10 + size la)) = .ok ((it :: lb).map ZipItem.str) := by
  intro lb
  induction lb with
  | nil =>
    intro la it fuel h hfuel
    obtain ⟨k, rfl⟩ : ∃ k, fuel = k + 1 := ⟨fuel - 1, by omega⟩
    rw [walk, ziplistGet_at h, ok_bind, elim_some, ziplistNext_spec h, ok_bind, if_pos rfl]
    cases k <;> rfl
  | cons nx lb ih =>
    intro la it fuel h hfuel
    obtain ⟨k, rfl⟩ : ∃ k, fuel = k + 1 := ⟨fuel - 1, by omega⟩
    have hassoc : la ++ it :: nx :: lb = la ++ [it] ++ nx :: lb := by rw [append_assoc, singleton_append]
    have hrest := @ih (la ++ [it]) nx k (hassoc ▸ h) (Nat.lt_of_succ_lt_succ hfuel)
    rw [← hassoc] at hrest
    rw [walk, ziplistGet_at h, ok_bind, elim_some, ziplistNext_spec h, ok_bind, if_neg (cons_ne_nil nx lb), hrest]
    rfl

theorem walk_backward : ∀ {la : List ZipItem} {it : ZipItem} {lb : List ZipItem} {fuel : ℕ}, ChainOk 0 (la ++ it :: lb) → la.length < fuel →
    walk (Ziplist.ziplistPrev (header b t n ++ (chain 0 (la ++ it :: lb) ++ [zipEnd]))) (ziplistGet (header b t n ++ (chain 0 (la ++ it :: lb) ++ [zipEnd])))
      fuel (some (10 + size la)) = .ok ((la ++ [it]).map ZipItem.str).reverse := by
  intro la
  induction la using List.reverseRecOn with
  | nil =>
    intro it lb fuel h hfuel
    obtain ⟨k, rfl⟩ : ∃ k, fuel = k + 1 := ⟨fuel - 1, by omega⟩
    rw [walk, ziplistGet_at h, ok_bind, elim_some, ziplistPrev_spec h, ok_bind, if_pos rfl]
    cases k <;> rfl
  | append_singleton la y ih =>
    intro it lb fuel h hfuel
    obtain ⟨k, rfl⟩ : ∃ k, fuel = k + 1 := ⟨fuel - 1, by omega⟩
    have hassoc : la ++ [y] ++ it :: lb = la ++ y :: it :: lb := by rw [append_assoc, singleton_append]
    have hlen : (la ++ [y]).length = la.length + 1 := by rw [length_append, length_singleton]
    have hrest := @ih y (it :: lb) k (hassoc ▸ h) (by omega)
    rw [← hassoc] at hrest
    rw [walk, ziplistGet_at h, ok_bind, elim_some, ziplistPrev_spec h, ok_bind, if_neg (by simp), dropLast_concat, hrest, ok_bind]
    simp

theorem holds_length (hfits : Fits b t [] l) : (header b t n ++ (chain 0 l ++ [zipEnd])).length = b := by
  rw [length_append, length_append, header_length, chain_length, length_singleton, hfits.bytes, length_nil]
  omega

theorem pointer_spec (h : ChainOk 0 l) (index : ℕ) :
    pointer (header b t n ++ (chain 0 l ++ [zipEnd])) index = .ok (10 + size (l.take index)) := by
  have hten : ziplistHeaderSize = 10 := rfl
  rw [pointer, hten, indexForward_spec index h header_length.symm]
  rfl

theorem ziplistIndex_front (h : ChainOk 0 l) {index : ℤ} (hindex : 0 ≤ index) : Ziplist.ziplistIndex (header b t n ++ (chain 0 l ++ [zipEnd])) index =
    .ok (if index.toNat < l.length then some (10 + size (l.take index.toNat)) else none) := by
  have hchain := h
  rw [← take_append_drop index.toNat l] at hchain
  have hplace : 10 + size (l.take index.toNat) = (header b t n ++ chain 0 (l.take index.toNat)).length := place_at b t n _
  have hcut : header b t n ++ (chain 0 l ++ [zipEnd]) =
      header b t n ++ chain 0 (l.take index.toNat) ++ (chain (lastLen 0 (l.take index.toNat)) (l.drop index.toNat) ++ [zipEnd]) := by
    conv_lhs => rw [← take_append_drop index.toNat l, chain_append]
    simp only [append_assoc]
  obtain ⟨x, h1, h2⟩ := byteAt_chain (chainOk_append.1 hchain).2 hplace
  rw [← hcut] at h1
  have hten : ziplistHeaderSize = 10 := rfl
  rw [Ziplist.ziplistIndex, if_neg (not_lt.2 hindex), hten, indexForward_spec index.toNat h header_length.symm, ok_bind]
  rw [h1, ok_bind]
  have hend : (x = zipEnd ∨ 0 < index.toNat - l.length) ↔ ¬ index.toNat < l.length := by
    rw [h2, drop_eq_nil_iff]
    omega
  by_cases hlt : index.toNat < l.length
  · rw [if_neg fun hc => hend.1 hc hlt, if_pos hlt]
  · rw [if_pos (hend.2 hlt), if_neg hlt]

theorem ziplistIndex_back (hfits : Fits b t [] l) (h : ChainOk 0 l) {index : ℤ} (hindex : index < 0) :
    Ziplist.ziplistIndex (header b t n ++ (chain 0 l ++ [zipEnd])) index =
      .ok (if 0 ≤ l.length + index then some (10 + size (l.take (l.length + index).toNat)) else none) := by
  obtain ⟨hb, hlt, ht⟩ := hfits
  have hle := size_dropLast_le l
  rw [Ziplist.ziplistIndex, if_pos hindex, ziplistTailOffset_header (by omega)]
  rcases eq_nil_or_concat l with rfl | ⟨l', it, rfl⟩
  · have hend : byteAt (header b t n ++ (chain 0 [] ++ [zipEnd])) t = .ok zipEnd := byteAt_at (ht.trans header_length.symm)
    rw [hend, ok_bind, if_pos rfl, ok_bind, hend, ok_bind, if_pos (Or.inl rfl), if_neg (by rw [length_nil]; omega)]
  · rw [concat_eq_append, dropLast_concat] at ht
    rw [concat_eq_append] at h ⊢
    have ht' : t = 10 + size l' := ht
    have hlen : (l' ++ [it]).length = l'.length + 1 := by rw [length_append, length_singleton]
    have hitem : ∀ k ≤ l'.length, ∃ x, x ≠ zipEnd ∧ byteAt (header b t n ++ (chain 0 (l' ++ [it]) ++ [zipEnd])) (10 + size (l'.take k)) = .ok x := by
      intro k hk
      have hsplit : l' ++ [it] = l'.take k ++ (l' ++ [it]).drop k := by
        conv_lhs => rw [← take_append_drop k (l' ++ [it])]
        rw [take_append_of_le_length hk]
      obtain ⟨y, rest, hcons⟩ : ∃ y rest, (l' ++ [it]).drop k = y :: rest := by
        refine exists_cons_of_ne_nil fun hc => ?_
        rw [drop_eq_nil_iff] at hc
        omega
      rw [hcons] at hsplit
      have hok : ChainOk 0 (l'.take k ++ y :: rest) := hsplit ▸ h
      obtain ⟨x, hx, h1⟩ := byteAt_item (a := header b t n ++ chain 0 (l'.take k)) (c := chain y.rawLen rest ++ [zipEnd]) (chainOk_append.1 hok).2.1
      refine ⟨x, hx, ?_⟩
      rw [hsplit, block_at, place_at b t n]
      exact h1
    obtain ⟨x, hx, h1⟩ := hitem l'.length (le_refl _)
    rw [take_length, ← ht'] at h1
    rw [h1, ok_bind, if_neg hx, ht', indexBackward_spec _ h, ok_bind]
    obtain ⟨y, hy, h2⟩ := hitem (l'.length - (-index - 1).toNat) (Nat.sub_le _ _)
    rw [ht'] at h2
    rw [h2, ok_bind, hlen]
    by_cases hin : 0 ≤ ((l'.length + 1 : ℕ) : ℤ) + index
    · have hindex' : (((l'.length + 1 : ℕ) : ℤ) + index).toNat = l'.length - (-index - 1).toNat := by omega
      rw [if_pos hin, if_neg (by
        rintro (hc | hc)
        · exact hy hc
        · omega), hindex', take_append_of_le_length (Nat.sub_le _ _)]
    · rw [if_neg hin, if_pos (Or.inr (by omega))]

theorem Holds.ok (h : Holds zl l) : ZipOk zl (l.map ZipItem.str) := by
  obtain ⟨b, t, n, hfits, hchain, hcount, rfl⟩ := h
  have hlen := holds_length (n := n) hfits
  have hsize := length_le_size l
  have hle := size_dropLast_le l
  have hb := hfits.bytes
  rw [length_nil] at hb
  have hfuel : l.length < b := by omega
  refine ⟨?_, ?_, ?_, ⟨?_, ?_⟩, ?_, ?_⟩
  · rw [forwards, ziplistIndex_front hchain (le_refl 0), ok_bind, hlen]
    cases l with
    | nil => cases b <;> rfl
    | cons it l => exact @walk_forward b t n l [] it b hchain (by rw [length_cons] at hfuel; omega)
  · rw [backwards, ziplistIndex_back hfits hchain (by decide), ok_bind, hlen]
    rcases eq_nil_or_concat l with rfl | ⟨l', it, rfl⟩
    · cases b <;> rfl
    · rw [concat_eq_append] at hchain hfuel ⊢
      have hlen' : (l' ++ [it]).length = l'.length + 1 := by rw [length_append, length_singleton]
      rw [hlen'] at hfuel
      have hback := @walk_backward b t n l' it [] b hchain (Nat.lt_of_succ_lt hfuel)
      have hindex : (((l'.length + 1 : ℕ) : ℤ) + -1).toNat = l'.length := by omega
      rw [hlen', if_pos (by omega), hindex, take_left, hback]
  · rw [ziplistBytes_header hfits.lt, hlen]
  · rw [← append_assoc, List.getLast?_concat]
  · rw [pointer_spec hchain, length_map, take_length, hlen]
    congr 1
    omega
  · have htail := hfits.tail
    rw [pointer_spec hchain, length_map, ziplistTailOffset_header (by rw [htail, length_nil]; have := hfits.lt; omega), htail,
      dropLast_eq_take, length_nil]
  · rw [ziplistLength_header hcount.lt, length_map]
    rcases hcount with hn | ⟨hn, -⟩
    · exact Or.inr hn
    · exact Or.inl hn

end KVStores.Redis.Ziplist
