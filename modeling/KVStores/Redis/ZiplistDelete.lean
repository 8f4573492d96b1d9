import KVStores.Redis.ZiplistCascade

/-!
# Deleting entries of a ziplist

* `deleteEntries_spec`: **entries are deleted**, and the lengths behind them are right again.
-/

namespace KVStores.Redis.Ziplist

open List

variable {prev w b t n p a : ℕ} {l la lb : List ZipItem} {it nx : ZipItem} {A D body : List UInt8}

def CountOk (n k : ℕ) : Prop := n = 65535 ∨ n = k ∧ k < 65535

/-- **A block has the entries** `l`. -/
def Holds (zl : List UInt8) (l : List ZipItem) : Prop :=
  ∃ b t n, Fits b t [] l ∧ ChainOk 0 l ∧ CountOk n l.length ∧ zl = header b t n ++ (chain 0 l ++ [zipEnd])

/-- A call leaves a block with the entries `l`, unless it is too large. -/
def Leaves (r : Except ZipFault (List UInt8)) (l : List ZipItem) : Prop := r = .error .tooLarge ∨ ∃ zl, r = .ok zl ∧ Holds zl l

variable {k : ℕ}

theorem CountOk.lt (h : CountOk n k) : n < 2 ^ 16 := by
  rcases h with rfl | ⟨rfl, h⟩ <;> omega

theorem CountOk.sub {d : ℕ} (h : CountOk n (k + d)) : CountOk (if n < 65535 then (((n : ℤ) + -(d : ℕ)) % 2 ^ 16).toNat else n) k := by
  rcases h with rfl | ⟨rfl, h⟩
  · exact Or.inl rfl
  · rw [if_pos h]
    right
    omega

theorem CountOk.succ (h : CountOk n k) : CountOk (if n < 65535 then (((n : ℤ) + 1) % 2 ^ 16).toNat else n) (k + 1) := by
  rcases h with rfl | ⟨rfl, h⟩
  · exact Or.inl rfl
  · rw [if_pos h]
    unfold CountOk
    omega

theorem lastLen_append (la lb : List ZipItem) (prev : ℕ) : lastLen prev (la ++ lb) = lastLen (lastLen prev la) lb := by
  induction la generalizing prev with
  | nil => rfl
  | cons it la ih => exact ih it.rawLen

theorem size_last (la : List ZipItem) : size la = size la.dropLast + lastLen 0 la := by
  rcases eq_nil_or_concat la with rfl | ⟨l', it, rfl⟩
  · rfl
  · rw [concat_eq_append, dropLast_concat, size_append, lastLen_append]
    rfl

theorem lastLen_le (la : List ZipItem) : lastLen 0 la ≤ size la := by
  have h := size_last la
  omega

theorem size_dropLast_le (l : List ZipItem) : size l.dropLast ≤ size l := by
  have h := size_last l
  omega

theorem length_le_size (l : List ZipItem) : 2 * l.length ≤ size l := by
  induction l with
  | nil => exact le_refl _
  | cons it l ih =>
    have hge := it.rawLen_ge
    rw [length_cons, size_cons]
    omega

/-- An entry with the length `a` in front of it, in as many bytes as it needs. -/
def ZipItem.behind (it : ZipItem) (a : ℕ) : ZipItem := ⟨decide (zipBiglen ≤ a), it.str⟩

theorem fieldOk_behind (it : ZipItem) (ha : a < 2 ^ 32) : FieldOk (it.behind a).large a := by
  refine ⟨?_, ha⟩
  by_cases h : zipBiglen ≤ a
  · exact Or.inl (decide_eq_true h)
  · exact Or.inr (not_le.1 h)

theorem tailDiff_spec (h : it.Ok prev) (hl : ChainOk w l) (ht : t < 2 ^ 32) (d : ℤ) (hp : p = 10 + A.length) :
    tailDiff (block b t n A it prev w l) p d = .ok (block b (if l = [] then t else u32 (t + d)) n A it prev w l) := by
  obtain ⟨e, h1, -, -, h2, -, -⟩ := zipEntry_item (a := header b t n ++ A) (c := chain w l ++ [zipEnd]) h
  rw [← block_entry, ← place_entry b t n A, ← hp] at h1
  have hplace : p + it.rawLen = (header b t n ++ (A ++ it.bytes prev)).length := by
    rw [← place_entry b t n, hp, place_next]
  obtain ⟨x, h3, h4⟩ := byteAt_chain hl hplace
  have hblock : block b t n A it prev w l = header b t n ++ (A ++ it.bytes prev) ++ (chain w l ++ [zipEnd]) := by
    rw [block]
    simp only [append_assoc]
  rw [← hblock] at h3
  rw [tailDiff, h1, ok_bind, Nat.add_assoc, h2, h3, ok_bind]
  by_cases hnil : l = []
  · rw [if_neg (not_not.2 (h4.2 hnil)), if_pos hnil]
  · rw [if_pos fun hx => hnil (h4.1 hx), if_neg hnil, block, setTailOffset_header, ziplistTailOffset_header ht]
    rfl

theorem cascade_spec (fill : ℕ → UInt8) {d : ℤ} (hit : it.Ok prev) (hl : ChainOk w l) (hfits : Fits b t A (it :: l)) (hd : d = 0 → w = it.rawLen)
    (hp : p = 10 + A.length) : Cascaded (if d ≠ 0 then cascade fill (block b t n A it prev w l) p else .ok (block b t n A it prev w l)) n A it prev
      (cascaded it.rawLen w l) := by
  by_cases hzero : d = 0
  · rw [if_neg (not_not.2 hzero), hd hzero, cascaded_same]
    exact Or.inr ⟨b, t, hfits, hd hzero ▸ hl, rfl⟩
  · have hbytes : ziplistBytes (block b t n A it prev w l) = b := ziplistBytes_header hfits.lt
    have hlen := hfits.bytes
    have hsize := length_le_size l
    rw [size_cons] at hlen
    rw [if_pos hzero, cascade, block_length hfits, hbytes, hp]
    exact cascadeUpdate_spec fill n hit hl hfits (by omega)

theorem deleteLoop_spec : ∀ {l : List ZipItem} {prev p : ℕ} {body : List UInt8} (num deleted : ℕ), ChainOk prev l → p = body.length →
    deleteLoop (body ++ (chain prev l ++ [zipEnd])) num p deleted = .ok (p + size (l.take num), deleted + (l.take num).length) := by
  intro l
  induction l with
  | nil =>
    intro prev p body num deleted h hp
    cases num with
    | zero => rfl
    | succ num =>
      obtain ⟨x, h1, h2⟩ := byteAt_chain h hp
      rw [deleteLoop, h1, ok_bind, if_pos (h2.2 rfl)]
      rfl
  | cons it l ih =>
    intro prev p body num deleted h hp
    cases num with
    | zero => rfl
    | succ num =>
      obtain ⟨hit, hl⟩ := h
      obtain ⟨x, hx, h1⟩ := byteAt_item (a := body) (c := chain it.rawLen l ++ [zipEnd]) hit
      have h2 := zipRawEntryLength_item (a := body) (c := chain it.rawLen l ++ [zipEnd]) hit
      have hcut : body ++ (chain prev (it :: l) ++ [zipEnd]) = body ++ (it.bytes prev ++ (chain it.rawLen l ++ [zipEnd])) := by
        rw [chain, append_assoc]
      rw [hcut, deleteLoop, hp, h1, ok_bind, if_neg hx, h2, ok_bind, ← append_assoc, ih num (deleted + 1) hl length_bytes.symm,
        take_succ_cons, size_cons, length_cons]
      congr 2 <;> omega

theorem front_cut (D F : List UInt8) (hk : k ≤ D.length + F.length) :
    ∃ d f, D ++ F = d ++ f ∧ f.length = k ∧ d.length + k = D.length + F.length := by
  refine ⟨(D ++ F).take (D.length + F.length - k), (D ++ F).drop (D.length + F.length - k), (take_append_drop _ _).symm, ?_, ?_⟩
  · rw [length_drop, length_append]
    omega
  · rw [length_take, length_append]
    omega

theorem Fits.tailOffsets (hfits : Fits b t (A ++ D) (nx :: l)) (hD : prevSize (nx.behind a).large ≤ D.length) :
    u32 ((t : ℤ) - (D.length : ℕ)) = t - D.length ∧ t - D.length < 2 ^ 32 ∧
      (if l = [] then t - D.length else u32 ((t - D.length : ℕ) + ((prevSize (nx.behind a).large : ℤ) - prevSize nx.large))) =
        10 + A.length + size (nx.behind a :: l).dropLast ∧ 10 + A.length + size (nx.behind a :: l).dropLast < 2 ^ 32 := by
  obtain ⟨hb, hlt, ht⟩ := hfits
  rw [length_append] at hb ht
  have hle := size_dropLast_le (nx :: l)
  have ht' : t < 2 ^ 32 := by omega
  have hDt : D.length ≤ t := by omega
  refine ⟨u32_eq (Int.ofNat_sub hDt).symm ((Nat.sub_le _ _).trans_lt ht'), (Nat.sub_le _ _).trans_lt ht', ?_⟩
  have hraw : nx.rawLen = prevSize nx.large + (zipPayload nx.str).length := rfl
  have hraw' : (nx.behind a).rawLen = prevSize (nx.behind a).large + (zipPayload nx.str).length := rfl
  by_cases hnil : l = []
  · subst hnil
    rw [if_pos rfl, ht]
    change 10 + (A.length + D.length) + 0 - D.length = 10 + A.length + 0 ∧ 10 + A.length + 0 < 2 ^ 32
    omega
  · rw [size_dropLast_cons nx hnil] at ht
    rw [if_neg hnil, size_dropLast_cons (nx.behind a) hnil]
    have hlast : 10 + A.length + ((nx.behind a).rawLen + size l.dropLast) < 2 ^ 32 := by omega
    exact ⟨u32_eq (by omega) hlast, hlast⟩

/-- **The tail behind the entries that are deleted** moves to the front, its first entry with another length before it. -/
theorem deleteMove_tail (hnx : nx.Ok w) (hl : ChainOk nx.rawLen l) (hok : (nx.behind a).Ok a) (hfits : Fits b t (A ++ D) (nx :: l))
    (hD : prevSize (nx.behind a).large ≤ D.length) : ∃ x t', t' = 10 + A.length + size (nx.behind a :: l).dropLast ∧
      deleteMove (block b t n (A ++ D) nx w nx.rawLen l) (10 + A.length) (10 + A.length + D.length) a =
        .ok (header b t' n ++ (A ++ (((nx.behind a).bytes a ++ chain nx.rawLen l) ++ (x ++ [zipEnd]))),
          (prevSize (nx.behind a).large : ℤ) - prevSize nx.large) := by
  obtain ⟨hdiff, hlt', htail, -⟩ := hfits.tailOffsets hD
  obtain ⟨hb, hlt, ht⟩ := hfits
  have hAD : (A ++ D).length = A.length + D.length := length_append
  have htlt : t < 2 ^ 32 := by
    have := size_dropLast_le (nx :: l)
    omega
  have hplace : 10 + A.length + D.length = (header b t n ++ (A ++ D)).length := by rw [← place_entry b t n, hAD, Nat.add_assoc]
  have hraw : nx.rawLen = prevSize nx.large + (zipPayload nx.str).length := rfl
  have hraw' : (nx.behind a).rawLen = prevSize (nx.behind a).large + (zipPayload nx.str).length := rfl
  have hfield : zipPrevEncodeLength a = prevField (nx.behind a).large a := zipPrevEncodeLength_eq a
  -- the first byte of the tail, and the bytes of its length
  obtain ⟨y, hy, h1⟩ := byteAt_item (a := header b t n ++ (A ++ D)) (c := chain nx.rawLen l ++ [zipEnd]) hnx
  have h2 := zipDecodePrevlensize_at (a := header b t n ++ (A ++ D)) (c := zipPayload nx.str ++ (chain nx.rawLen l ++ [zipEnd])) hnx.1
  rw [← append_assoc (prevField _ _), ← nx.bytes_eq] at h2
  rw [← block_entry, ← hplace] at h1 h2
  obtain ⟨d, f, hcut, hf, hd⟩ := front_cut D (prevField nx.large w) (hD.trans (Nat.le_add_right _ _))
  rw [prevField_length] at hd
  have hq : (((10 + A.length + D.length : ℕ) : ℤ) - ((prevSize (nx.behind a).large : ℤ) - prevSize nx.large)).toNat = 10 + (A ++ d).length := by
    rw [length_append]
    omega
  -- the length is stored
  have hblock : block b t n (A ++ D) nx w nx.rawLen l = header b t n ++ (A ++ d) ++ f ++ (zipPayload nx.str ++ (chain nx.rawLen l ++ [zipEnd])) := by
    have hcut' : header b t n ++ (A ++ d) ++ f = header b t n ++ (A ++ D) ++ prevField nx.large w := by
      rw [append_assoc, append_assoc A, ← hcut]
      simp only [append_assoc]
    rw [hcut', block_entry, nx.bytes_eq]
    simp only [append_assoc]
  have h3 : store (block b t n (A ++ D) nx w nx.rawLen l) (10 + (A ++ d).length) (prevField (nx.behind a).large a) =
      .ok (block b t n (A ++ d) (nx.behind a) a nx.rawLen l) := by
    have hstr : (nx.behind a).str = nx.str := rfl
    rw [hblock, place_entry b t n, store_at rfl (by rw [prevField_length, hf]), block_entry, ZipItem.bytes_eq, hstr]
    simp only [append_assoc]
  -- the tail moves over the rest of what is deleted
  have hdst : 10 + A.length = (header b (10 + A.length + size (nx.behind a :: l).dropLast) n ++ A).length := place_entry _ _ _ _
  have hsrc : 10 + (A ++ d).length = (header b (10 + A.length + size (nx.behind a :: l).dropLast) n ++ A ++ d).length := by
    exact place_entry _ _ _ _
  have hcount : b - (10 + (A ++ d).length) - 1 = ((nx.behind a).bytes a ++ chain nx.rawLen l).length := by
    rw [length_append, length_append, ZipItem.bytes_length, chain_length, hb, size_cons]
    omega
  obtain ⟨x, -, h6⟩ := Memory.move_front (e := [zipEnd]) hdst hsrc hcount
  have hassoc : ∀ h : List UInt8, h ++ (A ++ d ++ ((nx.behind a).bytes a ++ (chain nx.rawLen l ++ [zipEnd]))) =
      h ++ A ++ d ++ ((nx.behind a).bytes a ++ chain nx.rawLen l) ++ [zipEnd] := by
    intro h
    simp only [append_assoc]
  refine ⟨x, _, rfl, ?_⟩
  rw [deleteMove, h1, ok_bind, if_pos hy, zipPrevLenByteDiff, h2, ok_bind, ok_bind, hfield, prevField_length]
  dsimp only
  rw [hq, h3, ok_bind, Nat.add_sub_cancel_left, block, setTailOffset_header, ziplistTailOffset_header htlt, hdiff, ← block,
    tailDiff_spec hok hl hlt' _ rfl, ok_bind, htail, block, ziplistBytes_header hlt, hassoc, memmove, h6, inBounds, ok_bind]
  simp only [append_assoc]

theorem Fits.join (h : Fits b t (chain 0 la) (it :: l)) : Fits b t [] (la ++ it :: l) := by
  obtain ⟨hb, hlt, ht⟩ := h
  rw [chain_length] at hb ht
  refine ⟨?_, hlt, ?_⟩
  · rw [hb, size_append, length_nil]
    omega
  · rw [ht, size_dropLast_append (cons_ne_nil it l), length_nil]
    omega

theorem Fits.split (h : Fits b t [] (la ++ it :: l)) : Fits b t (chain 0 la) (it :: l) := by
  obtain ⟨hb, hlt, ht⟩ := h
  rw [length_nil, size_append] at hb
  rw [length_nil, size_dropLast_append (cons_ne_nil it l)] at ht
  exact ⟨by rw [hb, chain_length]; omega, hlt, by rw [ht, chain_length]; omega⟩

theorem lastLen_lt (h : Fits b t [] (la ++ l)) : lastLen 0 la < 2 ^ 32 := by
  have hb := h.bytes
  have hlt := h.lt
  have hle := lastLen_le la
  rw [size_append] at hb
  omega

/-- **The block has its entries again** after the cascade. -/
theorem Cascaded.holds {r : Except ZipFault (List UInt8)} (h : Cascaded r n (chain 0 la) it (lastLen 0 la) l) (hla : ChainOk 0 la)
    (hit : it.Ok (lastLen 0 la)) (hcount : CountOk n (la ++ it :: l).length) : Leaves r (la ++ it :: l) := by
  rcases h with h | ⟨b, t, hfits, hl, h⟩
  · exact Or.inl h
  · refine Or.inr ⟨_, h, b, t, n, hfits.join, chainOk_append.2 ⟨hla, hit, hl⟩, hcount, ?_⟩
    rw [chain_append, chain, block]
    simp only [append_assoc]

theorem cascaded_length {r : ℕ} : (cascaded r w l).length = l.length := by
  rw [← length_map ZipItem.str, cascaded_str, length_map]

/-- With no room for another length, the first of the deleted entries was shorter itself. -/
theorem behind_le (h : ChainOk a l) (hl : l ≠ []) (nx : ZipItem) : prevSize (nx.behind a).large ≤ size l := by
  obtain ⟨it, l, rfl⟩ := exists_cons_of_ne_nil hl
  have hge := it.rawLen_ge
  rw [size_cons]
  unfold ZipItem.behind
  by_cases hbig : zipBiglen ≤ a
  · have hlarge : it.large = true := h.1.1.1.resolve_right (not_lt.2 hbig)
    have hraw : it.rawLen = prevSize it.large + (zipPayload it.str).length := rfl
    rw [hlarge] at hraw
    rw [decide_eq_true hbig, hraw, Nat.add_assoc]
    exact Nat.le_add_right _ _
  · rw [decide_eq_false hbig]
    change 1 ≤ _
    omega

variable {ld : List ZipItem}

theorem deleteAll_spec (fill : ℕ → UInt8) (hfits : Fits b t [] (la ++ ld)) (hchain : ChainOk 0 (la ++ ld))
    (hcount : CountOk n (la ++ ld).length) :
    Leaves ((deleteMove (header b t n ++ (chain 0 (la ++ ld) ++ [zipEnd])) (10 + size la) (10 + size la + size ld) (lastLen 0 la)).bind
      (deleteResize fill (10 + size la) (size ld) ld.length)) la := by
  obtain ⟨hb, hlt, ht⟩ := hfits
  rw [length_nil, size_append] at hb
  have hend : byteAt (header b t n ++ (chain 0 (la ++ ld) ++ [zipEnd])) (10 + size la + size ld) = .ok zipEnd := by
    rw [← append_assoc]
    refine byteAt_at ?_
    rw [length_append, header_length, chain_length, size_append]
    omega
  have hlast := size_last la
  have htail : u32 (((10 + size la : ℕ) : ℤ) - (lastLen 0 la : ℕ)) = 10 + size la.dropLast := u32_eq (by omega) (by omega)
  have hmove : deleteMove (header b t n ++ (chain 0 (la ++ ld) ++ [zipEnd])) (10 + size la) (10 + size la + size ld) (lastLen 0 la) =
      .ok (header b (10 + size la.dropLast) n ++ (chain 0 la ++ (chain (lastLen 0 la) ld ++ [zipEnd])), 0) := by
    rw [deleteMove, hend, ok_bind, if_neg (not_not.2 rfl), setTailOffset_header, htail, chain_append, append_assoc]
  have hsize : ((b : ℤ) - (size ld : ℕ) + 0).toNat = 11 + size la := by omega
  rw [hmove, ok_bind, deleteResize, ziplistBytes_header hlt, hsize]
  rcases ziplistResize_spec fill b (10 + size la.dropLast) n (chain 0 la) (chain (lastLen 0 la) ld ++ [zipEnd]) (11 + size la)
    (by rw [chain_length, Nat.add_comm]) with h | ⟨x, hlt', hx, h⟩
  · left
    rw [h]
    rfl
  right
  rw [chain_length] at hx
  have hnil : x = [] := length_eq_zero_iff.1 (by omega)
  refine ⟨_, by rw [h, ok_bind]; exact if_neg (not_not.2 rfl), ?_⟩
  rw [hnil, nil_append, incrLength_header _ hcount.lt]
  rw [length_append] at hcount
  exact ⟨_, _, _, ⟨by rw [length_nil]; omega, hlt', rfl⟩, (chainOk_append.1 hchain).1, hcount.sub, rfl⟩

theorem deleteSome_spec (fill : ℕ → UInt8) (hld : ld ≠ []) (hfits : Fits b t [] (la ++ (ld ++ nx :: lb)))
    (hchain : ChainOk 0 (la ++ (ld ++ nx :: lb))) (hcount : CountOk n (la ++ (ld ++ nx :: lb)).length) :
    Leaves ((deleteMove (header b t n ++ (chain 0 (la ++ (ld ++ nx :: lb)) ++ [zipEnd])) (10 + size la) (10 + size la + size ld) (lastLen 0 la)).bind
        (deleteResize fill (10 + size la) (size ld) ld.length))
      (la ++ nx.behind (lastLen 0 la) :: cascaded (nx.behind (lastLen 0 la)).rawLen nx.rawLen lb) := by
  have hprev := lastLen_lt hfits
  obtain ⟨hla, hchain⟩ := chainOk_append.1 hchain
  obtain ⟨hokd, hnx, hlb⟩ := chainOk_append.1 hchain
  have hD : (chain (lastLen 0 la) ld).length = size ld := chain_length
  have hA : (chain 0 la).length = size la := chain_length
  have hroom := behind_le hokd hld nx
  have hraw : nx.rawLen = prevSize nx.large + (zipPayload nx.str).length := rfl
  have hraw' : (nx.behind (lastLen 0 la)).rawLen = prevSize (nx.behind (lastLen 0 la)).large + (zipPayload nx.str).length := rfl
  have hfits' : Fits b t (chain 0 la ++ chain (lastLen 0 la) ld) (nx :: lb) := by
    rw [← append_assoc] at hfits
    rw [← chain_append]
    exact hfits.split
  obtain ⟨hb, hlt, ht⟩ := id hfits'
  rw [length_append, hA, hD, size_cons] at hb
  have hok : (nx.behind (lastLen 0 la)).Ok (lastLen 0 la) := ⟨fieldOk_behind nx hprev, by omega⟩
  obtain ⟨x, t', ht', hmove⟩ := deleteMove_tail (n := n) hnx hlb hok hfits' (by rw [hD]; exact hroom)
  have hblock : header b t n ++ (chain 0 (la ++ (ld ++ nx :: lb)) ++ [zipEnd]) =
      block b t n (chain 0 la ++ chain (lastLen 0 la) ld) nx (lastLen (lastLen 0 la) ld) nx.rawLen lb := by
    rw [chain_append, chain_append, chain, block]
    simp only [append_assoc]
  rw [hA, hD] at hmove
  have hsize : ((b : ℤ) - (size ld : ℕ) + ((prevSize (nx.behind (lastLen 0 la)).large : ℤ) - prevSize nx.large)).toNat =
      11 + size la + (nx.behind (lastLen 0 la)).rawLen + size lb := by omega
  have hm : (chain 0 la ++ ((nx.behind (lastLen 0 la)).bytes (lastLen 0 la) ++ chain nx.rawLen lb)).length =
      size la + ((nx.behind (lastLen 0 la)).rawLen + size lb) := by
    rw [length_append, length_append, hA, ZipItem.bytes_length, chain_length]
  rw [hblock, hmove, ok_bind, deleteResize, ziplistBytes_header hlt, hsize, ← append_assoc (chain 0 la)]
  rcases ziplistResize_spec fill b t' n (chain 0 la ++ ((nx.behind (lastLen 0 la)).bytes (lastLen 0 la) ++ chain nx.rawLen lb)) (x ++ [zipEnd])
    (11 + size la + (nx.behind (lastLen 0 la)).rawLen + size lb) (by rw [hm]; omega) with h | ⟨y, hlt', hy, h⟩
  · left
    rw [h]
    rfl
  have hnil : y = [] := length_eq_zero_iff.1 (by omega)
  rw [h, ok_bind, hnil, nil_append, incrLength_header _ hcount.lt]
  have hblock' : ∀ b t n, header b t n ++ (chain 0 la ++ ((nx.behind (lastLen 0 la)).bytes (lastLen 0 la) ++ chain nx.rawLen lb) ++ [zipEnd]) =
      block b t n (chain 0 la) (nx.behind (lastLen 0 la)) (lastLen 0 la) nx.rawLen lb := by
    intro b t n
    rw [block]
    simp only [append_assoc]
  rw [hblock']
  refine (cascade_spec fill hok hlb ⟨?_, hlt', ht'⟩ (fun hd => by omega) (by rw [hA])).holds hla hok ?_
  · rw [hA, size_cons]
    omega
  · have hlen : (la ++ (ld ++ nx :: lb)).length =
        (la ++ nx.behind (lastLen 0 la) :: cascaded (nx.behind (lastLen 0 la)).rawLen nx.rawLen lb).length + ld.length := by
      rw [length_append, length_append, length_append, length_cons, length_cons, cascaded_length]
      omega
    rw [hlen] at hcount
    exact hcount.sub

theorem deleteEntries_spec (fill : ℕ → UInt8) {zl : List UInt8} {lr : List ZipItem} (num : ℕ) (h : Holds zl (la ++ lr)) (hr : lr ≠ []) :
    ∃ l, l.map ZipItem.str = (la ++ lr.drop num).map ZipItem.str ∧ Leaves (ziplistDeleteEntries fill zl (10 + size la) num) l := by
  obtain ⟨b, t, n, hfits, hchain, hcount, rfl⟩ := id h
  obtain ⟨first, rest, hcons⟩ := exists_cons_of_ne_nil hr
  have hchain' := (chainOk_append.1 hchain).2
  have hplace : 10 + size la = (header b t n ++ chain 0 la).length := by rw [length_append, header_length, chain_length]
  have hbytes : header b t n ++ (chain 0 (la ++ lr) ++ [zipEnd]) = header b t n ++ chain 0 la ++ (chain (lastLen 0 la) lr ++ [zipEnd]) := by
    rw [chain_append]
    simp only [append_assoc]
  -- the first entry to delete, and where the tail starts
  obtain ⟨e, h1, -, h2, -⟩ : ∃ e, zipEntry (header b t n ++ (chain 0 (la ++ lr) ++ [zipEnd])) (10 + size la) = .ok e ∧
      e.prevrawlensize = prevSize first.large ∧ e.prevrawlen = lastLen 0 la ∧ True := by
    rw [hcons] at hchain'
    obtain ⟨e, h1, h2, h3, -⟩ := zipEntry_item (a := header b t n ++ chain 0 la) (c := chain first.rawLen rest ++ [zipEnd]) hchain'.1
    refine ⟨e, ?_, h2, h3, trivial⟩
    rw [hbytes, hplace, hcons, chain, append_assoc (first.bytes _)]
    exact h1
  have h3 := deleteLoop_spec num 0 hchain' hplace
  rw [← hbytes, Nat.zero_add] at h3
  have hsub : 10 + size la + size (lr.take num) - (10 + size la) = size (lr.take num) := by omega
  rw [ziplistDeleteEntries, h1, ok_bind, h3, ok_bind, h2]
  rw [hsub]
  by_cases hnum : num = 0
  · subst hnum
    exact ⟨la ++ lr, rfl, Or.inr ⟨_, rfl, h⟩⟩
  have htake : lr.take num ≠ [] := by
    rw [hcons]
    obtain ⟨k, rfl⟩ := Nat.exists_eq_succ_of_ne_zero hnum
    exact cons_ne_nil _ _
  have hlr : lr.take num ++ lr.drop num = lr := take_append_drop num lr
  rw [if_pos (size_pos htake)]
  cases hdrop : lr.drop num with
  | nil =>
    rw [hdrop, append_nil] at hlr
    rw [hlr, append_nil]
    exact ⟨la, rfl, deleteAll_spec fill hfits hchain hcount⟩
  | cons nx lb =>
    rw [hdrop] at hlr
    rw [← hlr] at hfits hchain hcount
    have hspec := deleteSome_spec fill htake hfits hchain hcount
    rw [hlr] at hspec
    refine ⟨_, ?_, hspec⟩
    rw [map_append, map_append, map_cons, map_cons, cascaded_str]
    rfl

end KVStores.Redis.Ziplist
