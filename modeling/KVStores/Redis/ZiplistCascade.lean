import KVStores.Redis.ZiplistCoding

/-!
# Growing entries of a ziplist
-/

namespace KVStores.Redis.Ziplist

open List

/-- Entries behind one of `prev` bytes. -/
@[grind =] def chain : ℕ → List ZipItem → List UInt8
  | _, [] => []
  | prev, it :: l => it.bytes prev ++ chain it.rawLen l

@[grind =] def ChainOk : ℕ → List ZipItem → Prop
  | _, [] => True
  | prev, it :: l => it.Ok prev ∧ ChainOk it.rawLen l

@[grind =] def lastLen : ℕ → List ZipItem → ℕ
  | prev, [] => prev
  | _, it :: l => lastLen it.rawLen l

def size (l : List ZipItem) : ℕ := (l.map ZipItem.rawLen).sum

variable {prev w b t n p : ℕ} {l la lb : List ZipItem} {it : ZipItem} {A body : List UInt8} {fill : ℕ → UInt8}

@[simp] theorem size_nil : size [] = 0 := rfl

@[simp] theorem size_cons : size (it :: l) = it.rawLen + size l := sum_cons

theorem size_append : size (la ++ lb) = size la + size lb := by rw [size, map_append, sum_append, size, size]

theorem chain_length : ∀ {prev : ℕ} {l : List ZipItem}, (chain prev l).length = size l := by
  intro prev l
  induction l generalizing prev with
  | nil => rfl
  | cons it l ih => rw [chain, length_append, ZipItem.bytes_length, ih, size_cons]

theorem chain_append : ∀ {prev : ℕ} {la : List ZipItem}, chain prev (la ++ lb) = chain prev la ++ chain (lastLen prev la) lb := by
  intro prev la
  induction la generalizing prev with
  | nil => rfl
  | cons it la ih => rw [cons_append, chain, ih, chain, lastLen, append_assoc]

theorem chainOk_append : ∀ {prev : ℕ} {la : List ZipItem}, ChainOk prev (la ++ lb) ↔ ChainOk prev la ∧ ChainOk (lastLen prev la) lb := by
  intro prev la
  induction la generalizing prev with
  | nil => exact ⟨fun h => ⟨trivial, h⟩, fun h => h.2⟩
  | cons it la ih =>
    rw [cons_append, ChainOk, ih, ChainOk, lastLen, and_assoc]

theorem size_pos (h : l ≠ []) : 0 < size l := by
  obtain ⟨it, l, rfl⟩ := exists_cons_of_ne_nil h
  have hge := it.rawLen_ge
  rw [size_cons]
  omega

theorem size_dropLast_cons (it : ZipItem) (h : l ≠ []) : size (it :: l).dropLast = it.rawLen + size l.dropLast := by
  rw [dropLast_cons_of_ne_nil h, size_cons]

theorem size_dropLast_append (h : lb ≠ []) : size (la ++ lb).dropLast = size la + size lb.dropLast := by
  rw [dropLast_append_of_ne_nil h, size_append]

theorem byteAt_chain (h : ChainOk prev l) (hp : p = body.length) :
    ∃ x, byteAt (body ++ (chain prev l ++ [zipEnd])) p = .ok x ∧ (x = zipEnd ↔ l = []) := by
  subst hp
  cases l with
  | nil => exact ⟨zipEnd, byteAt_at rfl, iff_of_true rfl rfl⟩
  | cons it l =>
    obtain ⟨x, hx, hread⟩ := byteAt_item (a := body) (c := chain it.rawLen l ++ [zipEnd]) h.1
    refine ⟨x, ?_, iff_of_false hx (cons_ne_nil it l)⟩
    rw [chain, append_assoc]
    exact hread

def header (bytes tail len : ℕ) : List UInt8 := littleEndian 4 bytes ++ (littleEndian 4 tail ++ littleEndian 2 len)

@[simp] theorem header_length : (header b t n).length = 10 := by
  rw [header, length_append, length_append, littleEndian_length, littleEndian_length, littleEndian_length]

theorem ziplistBytes_header (hb : b < 2 ^ 32) : ziplistBytes (header b t n ++ body) = b := by
  have htake : (header b t n ++ body).take 4 = littleEndian 4 b := by
    exact take_left' (littleEndian_length 4 b)
  rw [ziplistBytes, htake, ofLittleEndian_littleEndian_of_lt hb]

theorem header_drop_four : (header b t n ++ body).drop 4 = littleEndian 4 t ++ (littleEndian 2 n ++ body) := by
  exact drop_left' (littleEndian_length 4 b)

theorem header_drop_eight : (header b t n ++ body).drop 8 = littleEndian 2 n ++ body := by
  exact drop_left' (littleEndian_length 4 t)

theorem ziplistTailOffset_header (ht : t < 2 ^ 32) : ziplistTailOffset (header b t n ++ body) = t := by
  have htake : ((header b t n ++ body).drop 4).take 4 = littleEndian 4 t := by
    exact take_left' (littleEndian_length 4 t)
  rw [ziplistTailOffset, htake, ofLittleEndian_littleEndian_of_lt ht]

theorem ziplistLength_header (hn : n < 2 ^ 16) : ziplistLength (header b t n ++ body) = n := by
  have htake : ((header b t n ++ body).drop 8).take 2 = littleEndian 2 n := by
    exact take_left' (littleEndian_length 2 n)
  rw [ziplistLength, htake, ofLittleEndian_littleEndian_of_lt hn]

theorem setBytes_header (v : ℕ) : setBytes (header b t n ++ body) v = header v t n ++ body := by
  rw [setBytes, header_drop_four, header, append_assoc, append_assoc]

theorem setTailOffset_header (v : ℤ) : setTailOffset (header b t n ++ body) v = header b (u32 v) n ++ body := by
  have htake : (header b t n ++ body).take 4 = littleEndian 4 b := by
    exact take_left' (littleEndian_length 4 b)
  rw [setTailOffset, header_drop_eight, htake, header, append_assoc, append_assoc, append_assoc]

theorem incrLength_header (v : ℤ) (hn : n < 2 ^ 16) : incrLength (header b t n ++ body) v =
    header b t (if n < 65535 then ((n + v) % 2 ^ 16).toNat else n) ++ body := by
  have htake : (header b t n ++ body).take 8 = littleEndian 4 b ++ littleEndian 4 t := by
    have hlen : (littleEndian 4 b ++ littleEndian 4 t).length = 8 := by rw [length_append, littleEndian_length, littleEndian_length]
    exact take_left' hlen
  have hdrop : (header b t n ++ body).drop 10 = body := drop_left' header_length
  rw [incrLength, ziplistLength_header hn, htake, hdrop]
  by_cases hlt : n < 65535
  · rw [if_pos hlt, if_pos hlt, header, append_assoc, append_assoc, append_assoc, append_assoc]
  · rw [if_neg hlt, if_neg hlt]

theorem u32_eq {v : ℤ} {k : ℕ} (hv : v = k) (hk : k < 2 ^ 32) : u32 v = k := by
  subst hv
  rw [u32, Int.emod_eq_of_lt (Int.natCast_nonneg k) (by exact_mod_cast hk), Int.toNat_natCast]

theorem u32_lt (v : ℤ) : u32 v < 2 ^ 32 := by
  unfold u32
  omega

theorem u32_add (v d : ℤ) : u32 ((u32 v : ℤ) + d) = u32 (v + d) := by
  unfold u32
  omega

/-- **A block of another size**, with at least some of its bytes. -/
theorem ziplistResize_spec (fill : ℕ → UInt8) (b t n : ℕ) (m rest : List UInt8) (len : ℕ) (hlen : m.length + 11 ≤ len) :
    ziplistResize fill (header b t n ++ (m ++ rest)) len = .error .tooLarge ∨ ∃ x, len < 2 ^ 32 ∧ x.length + m.length + 11 = len ∧
      ziplistResize fill (header b t n ++ (m ++ rest)) len = .ok (header len t n ++ (m ++ (x ++ [zipEnd]))) := by
  unfold ziplistResize
  by_cases hlt : len < 2 ^ 32
  · rw [if_pos hlt]
    right
    have hfit : (header b t n ++ m).length ≤ len := by
      rw [length_append, header_length]
      omega
    obtain ⟨y, hy, hylen⟩ := Memory.realloc_append (b := rest) fill hfit
    rw [length_append, header_length] at hylen
    rcases eq_nil_or_concat y with rfl | ⟨x, z, rfl⟩
    · rw [length_nil] at hylen
      omega
    rw [concat_eq_append] at hy hylen
    rw [length_append, length_singleton] at hylen
    refine ⟨x, hlt, by omega, ?_⟩
    have hcut : header len t n ++ (m ++ (x ++ [z])) = header len t n ++ (m ++ x) ++ [z] ++ [] := by
      rw [append_nil, append_assoc, append_assoc, ← append_assoc]
    have hcut' : header len t n ++ (m ++ (x ++ [zipEnd])) = header len t n ++ (m ++ x) ++ [zipEnd] ++ [] := by
      rw [append_nil, append_assoc, append_assoc, ← append_assoc]
    rw [← append_assoc, hy, append_assoc, setBytes_header, hcut, hcut']
    refine store_at ?_ rfl
    rw [length_append, length_append, header_length]
    omega
  · rw [if_neg hlt]
    exact Or.inl rfl

variable {r : ℕ} {next : Zlentry}

/-- Room is made for a length of five bytes where it had one. -/
theorem cascadeGrow_spec (fill : ℕ → UInt8) (n : ℕ) {m F R : List UInt8} (hF : F.length = 1) (hnext : next.prevrawlensize = 1) (hr : zipBiglen ≤ r)
    (hb : b = 10 + m.length + 1 + R.length + 1) (ht : t < 2 ^ 32) (hp : p = 10 + m.length) :
    cascadeGrow fill b (header b t n ++ (m ++ (F ++ (R ++ [zipEnd])))) p r next = .error .tooLarge ∨
    (b + 4 < 2 ^ 32 ∧ cascadeGrow fill b (header b t n ++ (m ++ (F ++ (R ++ [zipEnd])))) p r next =
      .ok (header (b + 4) (if t = p then t else u32 (t + 4)) n ++ (m ++ (prevField true r ++ (R ++ [zipEnd]))))) := by
  have hfield : zipPrevEncodeLength r = prevField true r := by rw [zipPrevEncodeLength_eq, decide_eq_true hr]
  have hsize : (zipPrevEncodeLength r).length = 5 := by
    rw [hfield, prevField_length]
    rfl
  have hblock : m ++ (F ++ (R ++ [zipEnd])) = m ++ (F ++ R) ++ [zipEnd] := by rw [append_assoc, append_assoc]
  have hm : (m ++ (F ++ R)).length = m.length + (1 + R.length) := by rw [length_append, length_append, hF]
  unfold cascadeGrow
  dsimp only
  rw [hsize, hnext, hblock]
  rcases ziplistResize_spec fill b t n (m ++ (F ++ R)) [zipEnd] (b + 4) (by rw [hm]; omega) with h1 | ⟨x, hlt, hx, h1⟩
  · left
    rw [h1]
    rfl
  right
  refine ⟨hlt, ?_⟩
  have hx4 : x.length = 4 := by omega
  rw [h1, ok_bind, ziplistTailOffset_header ht]
  -- the header, then the bytes behind it
  have htail : (if t ≠ p then setTailOffset (header (b + 4) t n ++ (m ++ (F ++ R) ++ (x ++ [zipEnd]))) (t + (5 - 1 : ℕ))
      else header (b + 4) t n ++ (m ++ (F ++ R) ++ (x ++ [zipEnd]))) =
      header (b + 4) (if t = p then t else u32 (t + 4)) n ++ m ++ F ++ R ++ x ++ [zipEnd] := by
    by_cases htp : t = p
    · rw [if_neg (not_not.2 htp), if_pos htp]
      simp only [append_assoc]
    · rw [if_pos htp, if_neg htp]
      simp only [append_assoc]
      rfl
  rw [htail]
  have hdst : p + 5 = (header (b + 4) (if t = p then t else u32 (t + 4)) n ++ m ++ F).length + x.length := by
    rw [length_append, length_append, header_length]
    omega
  have hsrc : p + 1 = (header (b + 4) (if t = p then t else u32 (t + 4)) n ++ m ++ F).length := by
    omega
  have hcount : b - p - 1 - 1 = R.length := by omega
  obtain ⟨y, hy, h2⟩ := Memory.move_back (e := [zipEnd]) hdst hsrc hcount
  have h3 : header (b + 4) (if t = p then t else u32 (t + 4)) n ++ m ++ F ++ y ++ R ++ [zipEnd] =
      header (b + 4) (if t = p then t else u32 (t + 4)) n ++ m ++ (F ++ y) ++ (R ++ [zipEnd]) := by simp only [append_assoc]
  rw [memmove, h2, inBounds, ok_bind, hfield, h3, store_at]
  · simp only [append_assoc]
  · rw [length_append, header_length, hp]
  · rw [prevField_length, length_append, hF, hy, hx4]
    rfl

/-- The entries behind one that has `r` bytes now, and had `w`. -/
@[grind =] def cascaded : ℕ → ℕ → List ZipItem → List ZipItem
  | _, _, [] => []
  | r, w, it :: l =>
    if w = r then it :: l
    else if it.large = false ∧ zipBiglen ≤ r then ⟨true, it.str⟩ :: cascaded (ZipItem.rawLen ⟨true, it.str⟩) it.rawLen l
    else it :: l

theorem cascaded_same (r : ℕ) (l : List ZipItem) : cascaded r r l = l := by
  cases l with
  | nil => rfl
  | cons it l => exact if_pos rfl

theorem cascaded_str : ∀ {l : List ZipItem} {r w : ℕ}, (cascaded r w l).map ZipItem.str = l.map ZipItem.str := by
  intro l
  induction l with
  | nil => intro r w; rfl
  | cons it l ih =>
    intro r w
    rw [cascaded]
    by_cases h1 : w = r
    · rw [if_pos h1]
    rw [if_neg h1]
    by_cases h2 : it.large = false ∧ zipBiglen ≤ r
    · rw [if_pos h2, map_cons, map_cons, ih]
    · rw [if_neg h2]

theorem zipPrevEncodeLength_length (r : ℕ) : (zipPrevEncodeLength r).length = prevSize (decide (zipBiglen ≤ r)) := by
  rw [zipPrevEncodeLength_eq, prevField_length]

variable {large : Bool}

theorem cascadeStore_eq (zl : List UInt8) (p : ℕ) (h : ¬ (large = false ∧ zipBiglen ≤ r)) :
    (if prevSize large < (zipPrevEncodeLength r).length then (.error .stuck : Except ZipFault (List UInt8))
      else if (zipPrevEncodeLength r).length < prevSize large then store zl p (zipPrevEncodeLengthForceLarge r)
      else store zl p (zipPrevEncodeLength r)) = store zl p (prevField large r) ∧ FieldOk large r = (r < 2 ^ 32) := by
  rw [zipPrevEncodeLength_length]
  by_cases hr : zipBiglen ≤ r
  · obtain rfl : large = true := by
      rw [← Bool.not_eq_false]
      exact fun hc => h ⟨hc, hr⟩
    refine ⟨?_, by rw [FieldOk]; simp⟩
    rw [zipPrevEncodeLength_eq, decide_eq_true hr, if_neg (lt_irrefl _), if_neg (lt_irrefl _)]
  · rw [zipPrevEncodeLength_eq, decide_eq_false hr]
    cases large with
    | true => exact ⟨rfl, by rw [FieldOk]; simp⟩
    | false => exact ⟨rfl, by rw [FieldOk]; simp [not_le.1 hr]⟩

/-- A header that is right for some bytes and the entries behind them. -/
structure Fits (b t : ℕ) (A : List UInt8) (l : List ZipItem) : Prop where
  bytes : b = 10 + A.length + size l + 1
  lt : b < 2 ^ 32
  tail : t = 10 + A.length + size l.dropLast

/-- Some bytes, an entry, and entries with the length `w` in front of them. -/
def block (b t n : ℕ) (A : List UInt8) (it : ZipItem) (prev w : ℕ) (l : List ZipItem) : List UInt8 :=
  header b t n ++ (A ++ (it.bytes prev ++ (chain w l ++ [zipEnd])))

/-- The block after a change, if there is room for it. -/
def Cascaded (r : Except ZipFault (List UInt8)) (n : ℕ) (A : List UInt8) (it : ZipItem) (prev : ℕ) (l : List ZipItem) : Prop :=
  r = .error .tooLarge ∨ ∃ b t, Fits b t A (it :: l) ∧ ChainOk it.rawLen l ∧ r = .ok (block b t n A it prev it.rawLen l)

theorem block_length (h : Fits b t A (it :: l)) : (block b t n A it prev w l).length = b := by
  have hb := h.bytes
  rw [size_cons] at hb
  rw [block, length_append, length_append, length_append, length_append, header_length, ZipItem.bytes_length, chain_length,
    length_singleton, hb]
  omega

theorem block_entry : block b t n A it prev w l = header b t n ++ A ++ (it.bytes prev ++ (chain w l ++ [zipEnd])) := (append_assoc _ _ _).symm

theorem block_next (r : ℕ) : block b t n A it prev r (nx :: l) = block b t n (A ++ it.bytes prev) nx r nx.rawLen l := by
  rw [block, block, chain]
  simp only [append_assoc]

theorem place_entry (b t n : ℕ) (A : List UInt8) : 10 + A.length = (header b t n ++ A).length := by rw [length_append, header_length]

theorem length_bytes : (A ++ it.bytes prev).length = A.length + it.rawLen := by rw [length_append, ZipItem.bytes_length]

theorem place_next : 10 + (A ++ it.bytes prev).length = 10 + A.length + it.rawLen := by rw [length_bytes, Nat.add_assoc]

theorem cascadeUpdate_nil (fuel : ℕ) (h : it.Ok prev) :
    cascadeUpdate fill (fuel + 1) b (block b t n A it prev w []) (10 + A.length) = .ok (block b t n A it prev w []) := by
  obtain ⟨x, hx, h1⟩ := byteAt_item (a := header b t n ++ A) (c := [zipEnd]) h
  obtain ⟨e, h2, -, -, h3, -, -⟩ := zipEntry_item (a := header b t n ++ A) (c := [zipEnd]) h
  have h4 : byteAt (header b t n ++ A ++ (it.bytes prev ++ [zipEnd])) ((header b t n ++ A).length + it.rawLen) = .ok zipEnd := by
    rw [← append_assoc]
    exact byteAt_at length_bytes.symm
  have hblock : block b t n A it prev w [] = header b t n ++ A ++ (it.bytes prev ++ [zipEnd]) := block_entry
  rw [cascadeUpdate, hblock, place_entry b t n A, h1, ok_bind, if_neg hx, h2, ok_bind]
  dsimp only
  rw [h3, h4, ok_bind, if_pos rfl]

theorem cascadeUpdate_cons (fill : ℕ → UInt8) (b t n : ℕ) (A : List UInt8) (l : List ZipItem) (fuel : ℕ) (h : it.Ok prev) (hnx : nx.Ok w) : ∃ next : Zlentry, next.prevrawlensize = prevSize nx.large ∧
    cascadeUpdate fill (fuel + 1) b (block b t n A it prev w (nx :: l)) (10 + A.length) =
      if w = it.rawLen then .ok (block b t n A it prev w (nx :: l)) else if prevSize nx.large < (zipPrevEncodeLength it.rawLen).length then
        (cascadeGrow fill b (block b t n A it prev w (nx :: l)) (10 + A.length + it.rawLen) it.rawLen next).bind fun zl =>
          cascadeUpdate fill fuel (b + ((zipPrevEncodeLength it.rawLen).length - prevSize nx.large)) zl (10 + A.length + it.rawLen)
      else if (zipPrevEncodeLength it.rawLen).length < prevSize nx.large then
        store (block b t n A it prev w (nx :: l)) (10 + A.length + it.rawLen) (zipPrevEncodeLengthForceLarge it.rawLen)
      else store (block b t n A it prev w (nx :: l)) (10 + A.length + it.rawLen) (zipPrevEncodeLength it.rawLen) := by
  obtain ⟨x, hx, h1⟩ := byteAt_item (a := header b t n ++ A) (c := chain w (nx :: l) ++ [zipEnd]) h
  obtain ⟨e, h2, -, -, h3, -, -⟩ := zipEntry_item (a := header b t n ++ A) (c := chain w (nx :: l) ++ [zipEnd]) h
  obtain ⟨y, hy, h4⟩ := byteAt_item (a := header b t n ++ (A ++ it.bytes prev)) (c := chain nx.rawLen l ++ [zipEnd]) hnx
  obtain ⟨next, h5, h6, h7, -, -, -⟩ := zipEntry_item (a := header b t n ++ (A ++ it.bytes prev)) (c := chain nx.rawLen l ++ [zipEnd]) hnx
  rw [← block_entry, ← place_entry b t n A] at h1 h2
  rw [← block_entry, ← block_next, ← place_entry b t n (A ++ it.bytes prev), place_next] at h4 h5
  refine ⟨next, h6, ?_⟩
  rw [cascadeUpdate, h1, ok_bind, if_neg hx, h2, ok_bind]
  dsimp only
  rw [h3, h4, ok_bind, if_neg hy, h5, ok_bind, h6, h7]

theorem cascadeGrow_block (fill : ℕ → UInt8) (n w : ℕ) (h : it.Ok prev) (hfits : Fits b t A (it :: nx :: l)) (hlarge : nx.large = false)
    (hr : zipBiglen ≤ it.rawLen) (hnext : next.prevrawlensize = prevSize nx.large) :
    cascadeGrow fill b (block b t n A it prev w (nx :: l)) (10 + A.length + it.rawLen) it.rawLen next = .error .tooLarge ∨
    ∃ t', Fits (b + 4) t' (A ++ it.bytes prev) (⟨true, nx.str⟩ :: l) ∧ ZipItem.Ok ⟨true, nx.str⟩ it.rawLen ∧
      cascadeGrow fill b (block b t n A it prev w (nx :: l)) (10 + A.length + it.rawLen) it.rawLen next =
        .ok (block (b + 4) t' n (A ++ it.bytes prev) ⟨true, nx.str⟩ it.rawLen nx.rawLen l) := by
  obtain ⟨hb, hlt, ht⟩ := hfits
  rw [size_cons, size_cons] at hb
  rw [size_dropLast_cons it (cons_ne_nil nx l)] at ht
  have hone : prevSize nx.large = 1 := by
    rw [hlarge]
    rfl
  have hraw : nx.rawLen = 1 + (zipPayload nx.str).length := by rw [ZipItem.rawLen, hone]
  have hraw' : ZipItem.rawLen ⟨true, nx.str⟩ = nx.rawLen + 4 := by
    change 5 + (zipPayload nx.str).length = _
    omega
  have hsplit : block b t n A it prev w (nx :: l) =
      header b t n ++ (A ++ it.bytes prev ++ (prevField nx.large w ++ (zipPayload nx.str ++ chain nx.rawLen l ++ [zipEnd]))) := by
    rw [block_next, block, nx.bytes_eq]
    simp only [append_assoc]
  have hm : (A ++ it.bytes prev).length = A.length + it.rawLen := length_bytes
  have htail : 10 + A.length + size (it :: nx :: l).dropLast ≤ b := by
    rcases eq_nil_or_concat l with rfl | ⟨l', z, rfl⟩
    · change 10 + A.length + (it.rawLen + 0) ≤ b
      omega
    · rw [size_dropLast_cons it (cons_ne_nil _ _), concat_eq_append, size_dropLast_cons nx (by simp), dropLast_concat]
      rw [concat_eq_append, size_append] at hb
      omega
  rw [size_dropLast_cons it (cons_ne_nil nx l)] at htail
  have hlen : b = 10 + (A ++ it.bytes prev).length + 1 + (zipPayload nx.str ++ chain nx.rawLen l).length + 1 := by
    rw [hm, length_append, chain_length]
    omega
  rw [hsplit]
  have hF : (prevField nx.large w).length = 1 := prevField_length.trans hone
  have hlt' : t < 2 ^ 32 := by omega
  rcases cascadeGrow_spec fill n hF (hnext.trans hone) hr hlen hlt' place_next.symm with h1 | ⟨hlt', h1⟩
  · exact Or.inl h1
  refine Or.inr ⟨if t = 10 + A.length + it.rawLen then t else u32 (t + 4), ⟨?_, hlt', ?_⟩, ⟨⟨Or.inl rfl, h.2⟩, by rw [hraw']; omega⟩, h1.trans ?_⟩
  · rw [size_cons, hm, hraw']
    omega
  · rw [hm]
    cases l with
    | nil =>
      change t = 10 + A.length + (it.rawLen + 0) at ht
      rw [if_pos (by omega), ht]
      change 10 + A.length + (it.rawLen + 0) = 10 + (A.length + it.rawLen) + 0
      omega
    | cons z l =>
      have h2 := size_dropLast_cons nx (cons_ne_nil z l)
      have h3 := size_dropLast_cons ⟨true, nx.str⟩ (cons_ne_nil z l)
      rw [if_neg (by omega)]
      exact u32_eq (by omega) (by omega)
  · rw [block, ZipItem.bytes_eq ⟨true, nx.str⟩]
    simp only [append_assoc]

theorem cascadeStore_block (r : ℕ) : store (block b t n A it prev w (nx :: l)) (10 + A.length + it.rawLen) (prevField nx.large r) =
    .ok (block b t n A it prev r (nx :: l)) := by
  have hsplit : ∀ v, block b t n A it prev v (nx :: l) =
      header b t n ++ (A ++ it.bytes prev) ++ prevField nx.large v ++ (zipPayload nx.str ++ (chain nx.rawLen l ++ [zipEnd])) := by
    intro v
    rw [block_next, block, nx.bytes_eq]
    simp only [append_assoc]
  rw [hsplit, hsplit, ← place_next, place_entry b t n]
  exact store_at rfl (by rw [prevField_length, prevField_length])

theorem not_grow (h : ¬ (large = false ∧ zipBiglen ≤ r)) : ¬ prevSize large < (zipPrevEncodeLength r).length := by
  rw [zipPrevEncodeLength_length]
  cases large with
  | true => cases decide (zipBiglen ≤ r) <;> decide
  | false =>
    rw [decide_eq_false fun hr => h ⟨rfl, hr⟩]
    exact lt_irrefl _

/-- **The lengths behind an entry that has changed** are right again, or the block has no room for them. -/
theorem cascadeUpdate_spec (fill : ℕ → UInt8) (n : ℕ) : ∀ {l : List ZipItem} {A : List UInt8} {it : ZipItem} {prev w b t fuel : ℕ}, it.Ok prev →
    ChainOk w l → Fits b t A (it :: l) → l.length < fuel →
    Cascaded (cascadeUpdate fill fuel b (block b t n A it prev w l) (10 + A.length)) n A it prev (cascaded it.rawLen w l) := by
  intro l
  induction l with
  | nil =>
    intro A it prev w b t fuel hit _ hfits hfuel
    obtain ⟨k, rfl⟩ : ∃ k, fuel = k + 1 := ⟨fuel - 1, by omega⟩
    exact Or.inr ⟨b, t, hfits, trivial, cascadeUpdate_nil k hit⟩
  | cons nx l ih =>
    intro A it prev w b t fuel hit hchain hfits hfuel
    obtain ⟨k, rfl⟩ : ∃ k, fuel = k + 1 := ⟨fuel - 1, by omega⟩
    obtain ⟨hnx, hl⟩ := hchain
    obtain ⟨next, hnext, hstep⟩ := cascadeUpdate_cons fill b t n A l k hit hnx
    rw [hstep, cascaded]
    by_cases hsame : w = it.rawLen
    · rw [if_pos hsame, if_pos hsame, hsame]
      exact Or.inr ⟨b, t, hfits, hsame ▸ ⟨hnx, hl⟩, rfl⟩
    rw [if_neg hsame, if_neg hsame]
    by_cases hgrow : nx.large = false ∧ zipBiglen ≤ it.rawLen
    · -- the next entry grows, and the one behind it is looked at
      have hfive : (zipPrevEncodeLength it.rawLen).length = 5 := by
        rw [zipPrevEncodeLength_length, decide_eq_true hgrow.2]
        rfl
      have hone : prevSize nx.large = 1 := by
        rw [hgrow.1]
        rfl
      rw [if_pos hgrow, if_pos (by omega), hfive, hone]
      rcases cascadeGrow_block fill n w hit hfits hgrow.1 hgrow.2 hnext with h1 | ⟨t', hfits', hok, h1⟩
      · left
        rw [h1]
        rfl
      rw [h1, ok_bind, ← place_next]
      rcases ih hok hl hfits' (Nat.lt_of_succ_lt_succ hfuel) with h2 | ⟨b'', t'', hfits'', hchain', h2⟩
      · exact Or.inl h2
      obtain ⟨h3, h4, h5⟩ := hfits''
      refine Or.inr ⟨b'', t'', ⟨?_, h4, ?_⟩, ⟨hok, hchain'⟩, h2.trans (congrArg _ (block_next it.rawLen).symm)⟩
      · have hsize : ∀ l', size (it :: l') = it.rawLen + size l' := fun _ => size_cons
        rw [h3, place_next, hsize]
        omega
      · rw [h5, place_next, size_dropLast_cons it (cons_ne_nil _ _)]
        omega
    · -- the length is stored in the bytes that are there, and this is the end
      obtain ⟨h1, h2⟩ := cascadeStore_eq (block b t n A it prev w (nx :: l)) (10 + A.length + it.rawLen) hgrow
      rw [if_neg (not_grow hgrow)] at h1 ⊢
      rw [if_neg hgrow, h1]
      have hfield : FieldOk nx.large it.rawLen := h2.symm ▸ hit.2
      refine Or.inr ⟨b, t, ⟨?_, hfits.lt, ?_⟩, ⟨⟨hfield, hnx.2⟩, hl⟩, cascadeStore_block it.rawLen⟩
      · rw [hfits.bytes, size_cons, size_cons]
      · rw [hfits.tail]

end KVStores.Redis.Ziplist
