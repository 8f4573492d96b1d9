import KVStores.Redis.ZiplistDelete

/-!
# Inserting into a ziplist

`insert_spec`: **an entry is inserted**, and the lengths behind it are right again, unless the block
is resized to fewer bytes than it has: an entry of less than four bytes in front of one that keeps
a short length in five bytes.
-/

namespace KVStores.Redis.Ziplist

open List Option

variable {prev w b t n p a : ℕ} {l la lb : List ZipItem} {it nx : ZipItem} {A D body s : List UInt8}

def newItem (s : List UInt8) (a : ℕ) : ZipItem := ⟨decide (zipBiglen ≤ a), s⟩

theorem insertPrevlen_spec {lr : List ZipItem} (hfits : Fits b t [] (la ++ lr)) (hchain : ChainOk 0 (la ++ lr)) :
    insertPrevlen (header b t n ++ (chain 0 (la ++ lr) ++ [zipEnd])) (10 + size la) = .ok (lastLen 0 la) := by
  obtain ⟨hb, hlt, ht⟩ := hfits
  have hle := size_dropLast_le (la ++ lr)
  have hplace : 10 + size la = (header b t n ++ chain 0 la).length := by rw [length_append, header_length, chain_length]
  have hbytes : header b t n ++ (chain 0 (la ++ lr) ++ [zipEnd]) = header b t n ++ chain 0 la ++ (chain (lastLen 0 la) lr ++ [zipEnd]) := by
    rw [chain_append]
    simp only [append_assoc]
  obtain ⟨x, h1, h2⟩ := byteAt_chain (chainOk_append.1 hchain).2 hplace
  rw [← hbytes] at h1
  rw [insertPrevlen, h1, ok_bind]
  cases lr with
  | cons nx lb =>
    obtain ⟨e, h3, -, h4, -⟩ := zipEntry_item (a := header b t n ++ chain 0 la) (c := chain nx.rawLen lb ++ [zipEnd]) (chainOk_append.1 hchain).2.1
    rw [if_pos fun hx => cons_ne_nil nx lb (h2.1 hx), hbytes, hplace, chain, append_assoc (nx.bytes _), h3, ok_bind, h4]
  | nil =>
    rw [if_neg (not_not.2 (h2.2 rfl)), ziplistTailOffset_header (by omega), append_nil]
    rw [append_nil] at ht hchain
    rcases eq_nil_or_concat la with rfl | ⟨l', it, rfl⟩
    · have hend : byteAt (header b t n ++ (chain 0 [] ++ [zipEnd])) t = .ok zipEnd := byteAt_at (ht.trans header_length.symm)
      rw [hend, ok_bind, if_neg (not_not.2 rfl)]
      rfl
    · -- the last entry
      rw [concat_eq_append, dropLast_concat, length_nil] at ht
      rw [concat_eq_append] at hchain ⊢
      have hlast : t = (header b t n ++ chain 0 l').length := by rw [length_append, header_length, chain_length, ht]
      have hcut : header b t n ++ (chain 0 (l' ++ [it]) ++ [zipEnd]) =
          header b t n ++ chain 0 l' ++ (it.bytes (lastLen 0 l') ++ (chain it.rawLen [] ++ [zipEnd])) := by
        simp only [chain_append, chain, append_assoc, append_nil, nil_append]
      obtain ⟨y, hy, h3⟩ := byteAt_item (a := header b t n ++ chain 0 l') (c := chain it.rawLen [] ++ [zipEnd]) (chainOk_append.1 hchain).2.1
      have h4 := zipRawEntryLength_item (a := header b t n ++ chain 0 l') (c := chain it.rawLen [] ++ [zipEnd]) (chainOk_append.1 hchain).2.1
      rw [← hcut, ← hlast] at h3 h4
      rw [h3, ok_bind, if_pos hy, h4, lastLen_append]
      rfl

theorem cut_at (J : List UInt8) {i : ℕ} (h : i ≤ J.length) : ∃ x y, J = x ++ y ∧ x.length = i :=
  ⟨J.take i, J.drop i, (take_append_drop i J).symm, length_take_of_le h⟩

theorem storeEntry_spec {U J V : List UInt8} (hJ : J.length = (newItem s a).rawLen) (hp : p = U.length) :
    ((store (U ++ J ++ V) p (zipPrevEncodeLength a)).bind fun zl =>
      (store zl (p + (zipPrevEncodeLength a).length) (zipEncodeLength (zipContents s).1 s.length)).bind fun zl =>
      (store zl (p + (zipPrevEncodeLength a).length + (zipEncodeLength (zipContents s).1 s.length).length) (zipContents s).2).bind fun zl =>
      .ok (incrLength zl 1)) = .ok (incrLength (U ++ (newItem s a).bytes a ++ V) 1) := by
  have hraw : (newItem s a).rawLen =
      (zipPrevEncodeLength a).length + ((zipEncodeLength (zipContents s).1 s.length).length + (zipContents s).2.length) := by
    rw [zipPrevEncodeLength_length, ← length_append]
    rfl
  have hbytes : (newItem s a).bytes a = zipPrevEncodeLength a ++ (zipEncodeLength (zipContents s).1 s.length ++ (zipContents s).2) := by
    rw [zipPrevEncodeLength_eq]
    rfl
  -- the room is cut in three
  obtain ⟨j1, j23, rfl, h1⟩ := cut_at J (i := (zipPrevEncodeLength a).length) (by omega)
  rw [length_append] at hJ
  obtain ⟨j2, j3, rfl, h2⟩ := cut_at j23 (i := (zipEncodeLength (zipContents s).1 s.length).length) (by omega)
  rw [length_append] at hJ
  have hcut : U ++ (j1 ++ (j2 ++ j3)) ++ V = U ++ j1 ++ (j2 ++ (j3 ++ V)) := by simp only [append_assoc]
  rw [hcut, store_at hp h1.symm, ok_bind, ← append_assoc, store_at (by rw [length_append, hp]) h2.symm, ok_bind, ← append_assoc,
    store_at (by rw [length_append, length_append, hp]) (by omega), ok_bind, hbytes]
  simp only [append_assoc]

theorem reqlen_eq (s : List UInt8) (a : ℕ) :
    (zipContents s).2.length + (zipPrevEncodeLength a).length + (zipEncodeLength (zipContents s).1 s.length).length = (newItem s a).rawLen := by
  rw [zipPrevEncodeLength_length, ZipItem.rawLen, zipPayload, length_append, newItem]
  dsimp only
  omega

/-- **An entry at the end.** -/
theorem insertEnd_spec (fill : ℕ → UInt8) (hfits : Fits b t [] la) (hchain : ChainOk 0 la) (hcount : CountOk n la.length) (s : List UInt8) :
    Leaves (ziplistInsert fill (header b t n ++ (chain 0 la ++ [zipEnd])) (10 + size la) s) (la ++ [newItem s (lastLen 0 la)]) := by
  have hprev : insertPrevlen (header b t n ++ (chain 0 la ++ [zipEnd])) (10 + size la) = .ok (lastLen 0 la) := by
    have h : insertPrevlen (header b t n ++ (chain 0 (la ++ []) ++ [zipEnd])) (10 + size la) = .ok (lastLen 0 la) :=
      insertPrevlen_spec (by rwa [append_nil]) (by rwa [append_nil])
    rwa [append_nil] at h
  obtain ⟨hb, hlt, ht⟩ := hfits
  rw [length_nil] at hb
  have hA : (chain 0 la).length = size la := chain_length
  have hge := (newItem s (lastLen 0 la)).rawLen_ge
  have hend : byteAt (header b t n ++ (chain 0 la ++ [zipEnd])) (10 + size la) = .ok zipEnd := by
    rw [← append_assoc]
    refine byteAt_at ?_
    rw [length_append, header_length, hA]
  have hsize : ((b : ℤ) + ((newItem s (lastLen 0 la)).rawLen : ℕ) + 0).toNat = b + (newItem s (lastLen 0 la)).rawLen := by omega
  rw [ziplistInsert, hprev, ok_bind]
  dsimp only
  rw [reqlen_eq, hend, ok_bind, if_neg (not_not.2 rfl), ok_bind, ziplistBytes_header hlt, insertMove, hsize]
  have hm : (chain 0 la ++ [zipEnd]).length = size la + 1 := by rw [length_append, hA, length_singleton]
  have hresize := ziplistResize_spec fill b t n (chain 0 la ++ [zipEnd]) [] (b + (newItem s (lastLen 0 la)).rawLen) (by rw [hm]; omega)
  rw [append_nil] at hresize
  rcases hresize with h | ⟨x, hlt', hx, h⟩
  · left
    rw [h]
    rfl
  right
  -- the end that was there is still there
  have hend' : byteAt (header (b + (newItem s (lastLen 0 la)).rawLen) t n ++ (chain 0 la ++ [zipEnd] ++ (x ++ [zipEnd]))) (10 + size la) = .ok zipEnd := by
    rw [append_assoc (chain 0 la), ← append_assoc]
    refine byteAt_at ?_
    rw [length_append, header_length, hA]
  have hlt'' : 10 + size la < 2 ^ 32 := by omega
  have hcut : header (b + (newItem s (lastLen 0 la)).rawLen) (10 + size la) n ++ (chain 0 la ++ [zipEnd] ++ (x ++ [zipEnd])) =
      header (b + (newItem s (lastLen 0 la)).rawLen) (10 + size la) n ++ chain 0 la ++ ([zipEnd] ++ x) ++ [zipEnd] := by simp only [append_assoc]
  rw [h, ok_bind, hend', ok_bind, if_neg (not_not.2 rfl), ok_bind, if_neg (not_not.2 rfl), ok_bind, setTailOffset_header, u32_eq rfl hlt'', hcut,
    storeEntry_spec (by rw [length_append, length_singleton]; omega) (by rw [length_append, header_length, hA])]
  have hassoc : ∀ h : List UInt8, h ++ chain 0 la ++ (newItem s (lastLen 0 la)).bytes (lastLen 0 la) ++ [zipEnd] =
      h ++ (chain 0 (la ++ [newItem s (lastLen 0 la)]) ++ [zipEnd]) := by
    intro h
    simp only [chain_append, chain, append_assoc, append_nil]
  refine ⟨_, rfl, b + (newItem s (lastLen 0 la)).rawLen, 10 + size la, if n < 65535 then (((n : ℤ) + 1) % 2 ^ 16).toNat else n,
    ⟨?_, hlt', ?_⟩, ?_, ?_, ?_⟩
  · rw [size_append, size_cons, size_nil, length_nil]
    omega
  · rw [dropLast_concat, length_nil]
  · refine chainOk_append.2 ⟨hchain, ⟨fieldOk_behind ⟨false, s⟩ (by have := lastLen_le la; omega), by omega⟩, trivial⟩
  · rw [length_append]
    exact hcount.succ
  · rw [hassoc, incrLength_header _ hcount.lt]

theorem insertTail_eq {b' r k : ℕ} (hfits : Fits b t A (nx :: l)) (hb' : b' + prevSize nx.large = b + r + prevSize (nx.behind r).large)
    (hlt : b' < 2 ^ 32) (hk : k = A.length + r) : (if l = [] then u32 ((t : ℤ) + (r : ℕ)) else
      u32 ((u32 ((t : ℤ) + (r : ℕ)) : ℤ) + ((prevSize (nx.behind r).large : ℤ) - prevSize nx.large))) = 10 + k + size (nx.behind r :: l).dropLast := by
  obtain ⟨hb, -, ht⟩ := hfits
  have hraw : nx.rawLen = prevSize nx.large + (zipPayload nx.str).length := rfl
  have hraw' : (nx.behind r).rawLen = prevSize (nx.behind r).large + (zipPayload nx.str).length := rfl
  rw [size_cons] at hb
  subst hk
  by_cases hnil : l = []
  · subst hnil
    change t = 10 + A.length + 0 at ht
    change _ = 10 + (A.length + r) + 0
    exact u32_eq (by omega) (by omega)
  · have h6 := size_dropLast_le l
    rw [size_dropLast_cons nx hnil] at ht
    rw [if_neg hnil, u32_add, size_dropLast_cons (nx.behind r) hnil]
    exact u32_eq (by omega) (by omega)

/-- **Room for an entry**: the tail moves to the back, its first entry with another length before it. -/
theorem insertMove_spec (fill : ℕ → UInt8) {r : ℕ} (hnx : nx.Ok a) (hl : ChainOk nx.rawLen l) (hfits : Fits b t A (nx :: l))
    (hroom : prevSize nx.large ≤ r + prevSize (nx.behind r).large) :
    insertMove fill (block b t n A nx a nx.rawLen l) (10 + A.length) b r ((prevSize (nx.behind r).large : ℤ) - prevSize nx.large) = .error .tooLarge ∨
    ∃ b' t' J, J.length = r ∧ Fits b' t' (A ++ J) (nx.behind r :: l) ∧
      insertMove fill (block b t n A nx a nx.rawLen l) (10 + A.length) b r ((prevSize (nx.behind r).large : ℤ) - prevSize nx.large) =
        .ok (block b' t' n (A ++ J) (nx.behind r) r nx.rawLen l) := by
  have ht' : t < 2 ^ 32 := by
    have hle := size_dropLast_le (nx :: l)
    have := hfits.bytes
    have := hfits.lt
    have := hfits.tail
    omega
  have hb := hfits.bytes
  have hraw : nx.rawLen = prevSize nx.large + (zipPayload nx.str).length := rfl
  rw [size_cons, hraw] at hb
  have hraw' : (nx.behind r).rawLen = prevSize (nx.behind r).large + (zipPayload nx.str).length := rfl
  have hfield : zipPrevEncodeLength r = prevField (nx.behind r).large r := zipPrevEncodeLength_eq r
  have hfive : prevSize (nx.behind r).large ≤ 5 := by
    unfold prevSize
    split_ifs <;> omega
  have hF : (prevField nx.large a).length = prevSize nx.large := prevField_length
  have hR : (zipPayload nx.str ++ chain nx.rawLen l).length = (zipPayload nx.str).length + size l := by rw [length_append, chain_length]
  obtain ⟨b', hb''⟩ : ∃ b', b' + prevSize nx.large = b + r + prevSize (nx.behind r).large :=
    ⟨b + r + prevSize (nx.behind r).large - prevSize nx.large, by omega⟩
  have hok : b' < 2 ^ 32 → (nx.behind r).Ok r := fun _ => ⟨fieldOk_behind nx (by omega), by omega⟩
  have hsize : ((b : ℤ) + (r : ℕ) + ((prevSize (nx.behind r).large : ℤ) - prevSize nx.large)).toNat = b' := by omega
  have hm : (A ++ (prevField nx.large a ++ (zipPayload nx.str ++ chain nx.rawLen l))).length =
      A.length + (prevSize nx.large + ((zipPayload nx.str).length + size l)) := by rw [length_append, length_append, hF, hR]
  have hblock : block b t n A nx a nx.rawLen l =
      header b t n ++ (A ++ (prevField nx.large a ++ (zipPayload nx.str ++ chain nx.rawLen l)) ++ [zipEnd]) := by
    rw [block, nx.bytes_eq]
    simp only [append_assoc]
  rw [insertMove, hsize, hblock]
  rcases ziplistResize_spec fill b t n (A ++ (prevField nx.large a ++ (zipPayload nx.str ++ chain nx.rawLen l))) [zipEnd] b' (by rw [hm]; omega) with
    h1 | ⟨x, hlt', hx, h1⟩
  · left
    rw [h1]
    rfl
  right
  -- the entry is still there
  obtain ⟨y, hy, h2⟩ := byteAt_item (a := header b' t n ++ A) (c := chain nx.rawLen l ++ (x ++ [zipEnd])) hnx
  have hitem : header b' t n ++ A ++ (nx.bytes a ++ (chain nx.rawLen l ++ (x ++ [zipEnd]))) =
      header b' t n ++ (A ++ (prevField nx.large a ++ (zipPayload nx.str ++ chain nx.rawLen l)) ++ (x ++ [zipEnd])) := by
    rw [nx.bytes_eq]
    simp only [append_assoc]
  rw [hitem, ← place_entry b' t n A] at h2
  -- what moves: the bytes for its new length, and the rest
  obtain ⟨d, f, hcut, hf, hd⟩ := front_cut (header b' t n ++ A) (prevField nx.large a) (k := prevSize (nx.behind r).large)
    (by rw [← place_entry b' t n A]; omega)
  rw [← place_entry b' t n A, hF] at hd
  have hread : header b' t n ++ (A ++ (prevField nx.large a ++ (zipPayload nx.str ++ chain nx.rawLen l)) ++ (x ++ [zipEnd])) =
      d ++ (f ++ (zipPayload nx.str ++ chain nx.rawLen l)) ++ (x ++ [zipEnd]) := by
    have hassoc : header b' t n ++ (A ++ (prevField nx.large a ++ (zipPayload nx.str ++ chain nx.rawLen l)) ++ (x ++ [zipEnd])) =
        header b' t n ++ A ++ prevField nx.large a ++ (zipPayload nx.str ++ chain nx.rawLen l ++ (x ++ [zipEnd])) := by simp only [append_assoc]
    rw [hassoc, hcut]
    simp only [append_assoc]
  -- where it goes
  obtain ⟨J, u, hcut', hJ⟩ := cut_at (prevField nx.large a ++ (zipPayload nx.str ++ chain nx.rawLen l) ++ x) (i := r) (by
    rw [length_append, length_append, hF, hR]
    omega)
  have hu : u.length = (f ++ (zipPayload nx.str ++ chain nx.rawLen l)).length := by
    have hlen := congrArg List.length hcut'
    rw [length_append, length_append, hF, hR, length_append, hJ] at hlen
    rw [length_append, hR, hf]
    omega
  have hwrite : header b' t n ++ (A ++ (prevField nx.large a ++ (zipPayload nx.str ++ chain nx.rawLen l)) ++ (x ++ [zipEnd])) =
      header b' t n ++ (A ++ J) ++ u ++ [zipEnd] := by
    have hassoc : header b' t n ++ (A ++ (prevField nx.large a ++ (zipPayload nx.str ++ chain nx.rawLen l)) ++ (x ++ [zipEnd])) =
        header b' t n ++ A ++ (prevField nx.large a ++ (zipPayload nx.str ++ chain nx.rawLen l) ++ x) ++ [zipEnd] := by simp only [append_assoc]
    rw [hassoc, hcut']
    simp only [append_assoc]
  have hAJ : (A ++ J).length = A.length + r := by rw [length_append, hJ]
  have hdst : 10 + A.length + r = (header b' t n ++ (A ++ J)).length := by rw [← place_entry b' t n, hAJ, Nat.add_assoc]
  have hmove : memmove (header b' t n ++ (A ++ (prevField nx.large a ++ (zipPayload nx.str ++ chain nx.rawLen l)) ++ (x ++ [zipEnd]))) (10 + A.length + r)
      (((10 + A.length : ℕ) : ℤ) - ((prevSize (nx.behind r).large : ℤ) - prevSize nx.large)).toNat
      ((b : ℤ) - (10 + A.length : ℕ) - 1 + ((prevSize (nx.behind r).large : ℤ) - prevSize nx.large)).toNat =
      .ok (header b' t n ++ (A ++ J) ++ (f ++ (zipPayload nx.str ++ chain nx.rawLen l)) ++ [zipEnd]) := by
    have hsrc : (((10 + A.length : ℕ) : ℤ) - ((prevSize (nx.behind r).large : ℤ) - prevSize nx.large)).toNat = d.length := by omega
    have hcount : ((b : ℤ) - (10 + A.length : ℕ) - 1 + ((prevSize (nx.behind r).large : ℤ) - prevSize nx.large)).toNat =
        (f ++ (zipPayload nx.str ++ chain nx.rawLen l)).length := by
      rw [length_append, hR, hf]
      omega
    rw [memmove, Memory.move, hread, Memory.read_at hsrc hcount, bind_some, ← hread, hwrite, Memory.write_at hdst hu.symm]
    rfl
  have hstore : store (header b' t n ++ (A ++ J) ++ (f ++ (zipPayload nx.str ++ chain nx.rawLen l)) ++ [zipEnd]) (10 + A.length + r)
      (prevField (nx.behind r).large r) = .ok (block b' t n (A ++ J) (nx.behind r) r nx.rawLen l) := by
    have hassoc : header b' t n ++ (A ++ J) ++ (f ++ (zipPayload nx.str ++ chain nx.rawLen l)) ++ [zipEnd] =
        header b' t n ++ (A ++ J) ++ f ++ (zipPayload nx.str ++ (chain nx.rawLen l ++ [zipEnd])) := by simp only [append_assoc]
    have hstr : (nx.behind r).str = nx.str := rfl
    rw [hassoc, store_at hdst (by rw [prevField_length, hf]), block_entry, ZipItem.bytes_eq, hstr]
    simp only [append_assoc]
  have htail := insertTail_eq (k := (A ++ J).length) hfits hb'' hlt' hAJ
  refine ⟨b', _, J, hJ, ⟨?_, hlt', htail⟩, ?_⟩
  · rw [hAJ, size_cons, hraw']
    omega
  · rw [h1, ok_bind, h2, ok_bind, if_pos hy, hmove, ok_bind, hfield, hstore, ok_bind, block, setTailOffset_header, ziplistTailOffset_header ht',
      ← block, tailDiff_spec (hok hlt') hl (u32_lt _) _ (by rw [hAJ, Nat.add_assoc])]

/-- **An entry in front of another one.** -/
theorem insertMiddle_spec (fill : ℕ → UInt8) (hfits : Fits b t [] (la ++ nx :: lb)) (hchain : ChainOk 0 (la ++ nx :: lb))
    (hcount : CountOk n (la ++ nx :: lb).length) (s : List UInt8)
    (hroom : prevSize nx.large ≤ (newItem s (lastLen 0 la)).rawLen + prevSize (nx.behind (newItem s (lastLen 0 la)).rawLen).large) :
    Leaves (ziplistInsert fill (header b t n ++ (chain 0 (la ++ nx :: lb) ++ [zipEnd])) (10 + size la) s)
      (la ++ newItem s (lastLen 0 la) :: nx.behind (newItem s (lastLen 0 la)).rawLen ::
        cascaded (nx.behind (newItem s (lastLen 0 la)).rawLen).rawLen nx.rawLen lb) := by
  have hprev := insertPrevlen_spec (n := n) hfits hchain
  have hlast := lastLen_lt hfits
  obtain ⟨hla, hnx, hlb⟩ := chainOk_append.1 hchain
  have hA : (chain 0 la).length = size la := chain_length
  obtain ⟨r, hr⟩ : ∃ r, r = (newItem s (lastLen 0 la)).rawLen := ⟨_, rfl⟩
  have hraw : nx.rawLen = prevSize nx.large + (zipPayload nx.str).length := rfl
  have hraw' : (nx.behind r).rawLen = prevSize (nx.behind r).large + (zipPayload nx.str).length := rfl
  have hblock : header b t n ++ (chain 0 (la ++ nx :: lb) ++ [zipEnd]) = block b t n (chain 0 la) nx (lastLen 0 la) nx.rawLen lb := by
    rw [chain_append, chain, block]
    simp only [append_assoc]
  have hfits' := hfits.split
  rw [← hr] at hroom ⊢
  rw [hblock] at hprev ⊢
  -- the entry in front of which it goes
  obtain ⟨x, hx, h1⟩ := byteAt_item (a := header b t n ++ chain 0 la) (c := chain nx.rawLen lb ++ [zipEnd]) hnx
  have h2 := zipDecodePrevlensize_at (a := header b t n ++ chain 0 la) (c := zipPayload nx.str ++ (chain nx.rawLen lb ++ [zipEnd])) hnx.1
  rw [← append_assoc (prevField _ _), ← nx.bytes_eq] at h2
  rw [← block_entry, ← place_entry b t n, hA] at h1 h2
  have hdiff : zipPrevLenByteDiff (block b t n (chain 0 la) nx (lastLen 0 la) nx.rawLen lb) (10 + size la) r =
      .ok ((prevSize (nx.behind r).large : ℤ) - prevSize nx.large) := by
    rw [zipPrevLenByteDiff, h2, ok_bind, zipPrevEncodeLength_length]
    rfl
  have hbytes : ziplistBytes (block b t n (chain 0 la) nx (lastLen 0 la) nx.rawLen lb) = b := ziplistBytes_header hfits'.lt
  rw [ziplistInsert, hprev, ok_bind]
  dsimp only
  rw [reqlen_eq, ← hr, h1, ok_bind, if_pos hx, hdiff, ok_bind, hbytes]
  have hmove := insertMove_spec fill (n := n) hnx hlb hfits' hroom
  rw [hA] at hmove
  rcases hmove with h3 | ⟨b', t', J, hJ, hfits'', h3⟩
  · left
    rw [h3]
    rfl
  have hAJ : (chain 0 la ++ J).length = size la + r := by rw [length_append, hA, hJ]
  have hb' := hfits''.bytes
  have hlt' := hfits''.lt
  rw [hAJ, size_cons] at hb'
  have hok : (nx.behind r).Ok r := ⟨fieldOk_behind nx (by omega), by omega⟩
  rw [h3, ok_bind]
  rcases cascade_spec fill (n := n) (d := (prevSize (nx.behind r).large : ℤ) - prevSize nx.large) hok hlb hfits'' (fun hd => by omega)
    (by rw [hAJ, Nat.add_assoc] : 10 + size la + r = _) with h4 | ⟨b'', t'', hfits3, hchain', h4⟩
  · left
    rw [h4]
    rfl
  right
  obtain ⟨hb'', hlt'', ht''⟩ := hfits3
  -- the entry is written into its room
  have hcut : block b'' t'' n (chain 0 la ++ J) (nx.behind r) r (nx.behind r).rawLen (cascaded (nx.behind r).rawLen nx.rawLen lb) =
      header b'' t'' n ++ chain 0 la ++ J ++
        ((nx.behind r).bytes r ++ (chain (nx.behind r).rawLen (cascaded (nx.behind r).rawLen nx.rawLen lb) ++ [zipEnd])) := by
    rw [block]
    simp only [append_assoc]
  have hassoc : header b'' t'' n ++ chain 0 la ++ (newItem s (lastLen 0 la)).bytes (lastLen 0 la) ++
      ((nx.behind r).bytes r ++ (chain (nx.behind r).rawLen (cascaded (nx.behind r).rawLen nx.rawLen lb) ++ [zipEnd])) =
      header b'' t'' n ++ (chain 0 (la ++ newItem s (lastLen 0 la) :: nx.behind r :: cascaded (nx.behind r).rawLen nx.rawLen lb) ++ [zipEnd]) := by
    rw [chain_append, chain, chain, ← hr]
    simp only [append_assoc]
  rw [h4, ok_bind, hcut, storeEntry_spec (hJ.trans hr) (by rw [length_append, header_length, hA]), hassoc, incrLength_header _ hcount.lt]
  refine ⟨_, rfl, b'', t'', _, ⟨?_, hlt'', ?_⟩, ?_, ?_, rfl⟩
  · rw [size_append, size_cons, ← hr, length_nil]
    omega
  · rw [size_dropLast_append (cons_ne_nil _ _), size_dropLast_cons _ (cons_ne_nil _ _), ← hr, length_nil]
    omega
  · refine chainOk_append.2 ⟨hla, ⟨fieldOk_behind ⟨false, s⟩ hlast, by omega⟩, ?_⟩
    rw [← hr]
    exact ⟨hok, hchain'⟩
  · have hlen : (la ++ newItem s (lastLen 0 la) :: nx.behind r :: cascaded (nx.behind r).rawLen nx.rawLen lb).length = (la ++ nx :: lb).length + 1 := by
      rw [length_append, length_append, length_cons, length_cons, length_cons, cascaded_length]
      omega
    rw [hlen]
    exact hcount.succ

end KVStores.Redis.Ziplist
