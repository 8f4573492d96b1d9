import KVStores.Lib.SkipList

/-!
# Changes of skip lists
-/

namespace KVStores

open List Option

namespace SkipList

variable {α : Type} {hgt : ℕ → ℕ} {i : ℕ} {l pre post : List ℕ} {z : SkipList α} {ids : List ℕ} {maxLevel : ℕ} {es : List α}

variable {a b : List ℕ} {n y : ℕ}

theorem split_insert (h : 0 :: (pre ++ n :: post) = a ++ y :: b) :
    (∃ mid, 0 :: pre = a ++ y :: mid ∧ b = mid ++ n :: post) ∨ (y = n ∧ a = 0 :: pre ∧ b = post) ∨
      ∃ c, post = c ++ y :: b ∧ a = 0 :: pre ++ n :: c := by
  rw [← cons_append] at h
  rcases append_eq_append_iff.1 h with ⟨c, rfl, hc⟩ | ⟨c, hc, hb⟩
  · cases c with
    | nil =>
      obtain ⟨rfl, rfl⟩ := List.cons.inj hc
      exact Or.inr (Or.inl ⟨rfl, append_nil _, rfl⟩)
    | cons w c =>
      obtain ⟨rfl, rfl⟩ := List.cons.inj hc
      exact Or.inr (Or.inr ⟨c, rfl, rfl⟩)
  · cases c with
    | nil =>
      rw [append_nil] at hc
      obtain ⟨rfl, rfl⟩ := List.cons.inj hb
      exact Or.inr (Or.inl ⟨rfl, hc.symm, rfl⟩)
    | cons w mid =>
      obtain ⟨rfl, rfl⟩ := List.cons.inj hb
      exact Or.inl ⟨mid, hc, rfl⟩

theorem raise_layout (h : Layout maxLevel z ids es) (hn : n ≤ maxLevel) :
    Layout maxLevel (z.raise n) ids es ∧ n ≤ (z.raise n).level ∧ z.level ≤ (z.raise n).level ∧ (z.raise n).fresh = z.fresh ∧
      ∀ x ∈ ids, (z.raise n).height x = z.height x := by
  unfold raise
  by_cases hlt : z.level < n
  · rw [if_pos hlt]
    have hheight : ∀ x ∈ ids, (if x = 0 then n else (z.node x).height) = z.height x := by
      intro x hx
      rw [if_neg (h.ne_zero hx), height_pos x (h.ne_zero hx)]
    refine ⟨⟨h.nodup, h.fresh, ⟨h.levels.1.trans hlt.le, hn⟩, fun x hx => ⟨(h.heights x hx).1, (h.heights x hx).2.trans hlt.le⟩, ?_, ?_,
      h.elems, h.header, h.backward, h.tail, h.length⟩, le_refl n, hlt.le, rfl, hheight⟩
    · intro a x b hab i hi
      have hb : ∀ w ∈ b, w ∈ ids := by
        intro w hw
        cases a with
        | nil =>
          obtain ⟨-, rfl⟩ := List.cons.inj hab
          exact hw
        | cons v a =>
          rw [(List.cons.inj hab).2]
          exact mem_append_right a (mem_cons_of_mem x hw)
      change (if i < n ∧ 0 = x then (if z.level ≤ i then { (z.node x).level i with span := z.length } else (z.node x).level i)
        else (z.node x).level i) = link (fun x => if x = 0 then n else (z.node x).height) i b
      rw [link_congr fun w hw => hheight w (hb w hw)]
      by_cases hx : 0 = x
      · subst hx
        -- the header is the first of all
        obtain ⟨rfl, rfl⟩ : a = [] ∧ b = ids := by
          cases a with
          | nil => exact ⟨rfl, (List.cons.inj hab).2.symm⟩
          | cons v a =>
            refine absurd ?_ (nodup_cons.1 h.nodup).1
            rw [(List.cons.inj hab).2]
            exact mem_append_right a mem_cons_self
        rw [if_pos ⟨hi, rfl⟩]
        by_cases hle : z.level ≤ i
        · rw [if_pos hle, link_end fun w hw => (h.height_le (mem_cons_of_mem 0 hw)).trans hle, h.length]
          ext1
          · exact h.unused i hle
          · rfl
        · rw [if_neg hle]
          exact h.links [] 0 _ hab i (by rw [height, if_pos rfl]; omega)
      · rw [if_neg fun hc => hx hc.2]
        refine h.links a x b hab i ?_
        rw [height_pos x (Ne.symm hx)]
        rwa [height_pos x (Ne.symm hx)] at hi
    · intro i hi
      have hi : n ≤ i := hi
      change (if i < n ∧ 0 = 0 then (if z.level ≤ i then { (z.node 0).level i with span := z.length } else (z.node 0).level i)
        else (z.node 0).level i).forward = none
      rw [if_neg (by omega)]
      exact h.unused i (by omega)
  · rw [if_neg hlt]
    exact ⟨h, not_lt.1 hlt, le_refl _, rfl, fun _ _ => rfl⟩

variable {x r : ℕ}

theorem LastAt.mem (h : LastAt hgt l i x r) : x ∈ l := by
  obtain ⟨a, b, rfl, -⟩ := h
  exact mem_append_right a mem_cons_self

theorem LastAt.zero (h : LastAt hgt l 0 x r) (hpos : ∀ y ∈ l, 1 ≤ hgt y) : ∃ a, l = a ++ [x] ∧ r = a.length := by
  obtain ⟨a, b, rfl, -, hb, rfl⟩ := h
  cases b with
  | nil => exact ⟨a, rfl, rfl⟩
  | cons y b =>
    have h1 := hb y mem_cons_self
    have h2 := hpos y (mem_append_right a (mem_cons_of_mem x mem_cons_self))
    omega

theorem split_unique {a' b' : List ℕ} (hnd : (a ++ x :: b).Nodup) (h : a ++ x :: b = a' ++ x :: b') : a = a' ∧ b = b' := by
  rcases append_eq_append_iff.1 h with ⟨c, rfl, hc⟩ | ⟨c, rfl, hc⟩
  · cases c with
    | nil =>
      exact ⟨(append_nil a).symm, (List.cons.inj hc).2⟩
    | cons w c =>
      rw [(List.cons.inj hc).2] at hnd
      exact absurd (mem_append_right c mem_cons_self) (nodup_cons.1 (nodup_append.1 hnd).2.1).1
  · cases c with
    | nil =>
      rw [nil_append] at hc
      exact ⟨append_nil a', (List.cons.inj hc).2.symm⟩
    | cons w c =>
      rw [cons_append] at hc
      rw [h, (List.cons.inj hc).2] at hnd
      exact absurd (mem_append_right c mem_cons_self) (nodup_cons.1 (nodup_append.1 hnd).2.1).1

theorem not_lastAt (hnd : l.Nodup) (hl : l = a ++ x :: b) (hy : y ∈ b) (hi : i < hgt y) : ¬ LastAt hgt l i x r := by
  rintro ⟨a', b', hsplit, -, hb', -⟩
  rw [hl] at hnd hsplit
  have := hb' y ((split_unique hnd hsplit).2 ▸ hy)
  omega

section Place

variable {update rank : ℕ → ℕ} {n : ℕ} {e : α} {y : ℕ}

theorem place_node (hy : y ≠ z.fresh) : (z.place update rank n e).node y = { z.node y with
      backward := if ((z.node (update 0)).level 0).forward = some y then some z.fresh else (z.node y).backward
      level := fun i => if i < z.level ∧ update i = y then
        (if i < n then ⟨some z.fresh, rank 0 - rank i + 1⟩ else { (z.node y).level i with span := ((z.node y).level i).span + 1 })
        else (z.node y).level i } := by
  unfold place
  dsimp only
  rw [if_neg hy]
  by_cases hb : ((z.node (update 0)).level 0).forward = some y
  · rw [if_pos hb, if_pos hb]
    rfl
  · rw [if_neg hb, if_neg hb]
    rfl

theorem place_new : (z.place update rank n e).node z.fresh =
    ⟨some e, if update 0 = 0 then none else some (update 0), n, fun i => ⟨((z.node (update i)).level i).forward,
      ((z.node (update i)).level i).span - (rank 0 - rank i)⟩⟩ := if_pos rfl

theorem place_height (hy : y ≠ z.fresh) : (z.place update rank n e).height y = z.height y := by
  unfold height
  rw [place_node hy]
  rfl

/-- **A node is put behind the last nodes of the levels.** -/
theorem place_layout {ea eb : List α} (h : Layout maxLevel z (pre ++ post) (ea ++ eb)) (hea : ea.length = pre.length)
    (hlast : ∀ i < z.level, LastAt z.height (0 :: pre) i (update i) (rank i)) (hn : 1 ≤ n) (hle : n ≤ z.level) :
    Layout maxLevel (z.place update rank n e) (pre ++ z.fresh :: post) (ea ++ e :: eb) := by
  have hnew : z.fresh ∉ 0 :: (pre ++ post) := fun hmem => absurd (h.fresh _ hmem) (lt_irrefl _)
  have hne : ∀ w ∈ 0 :: (pre ++ post), w ≠ z.fresh := fun w hw hc => hnew (hc ▸ hw)
  have hnepre : ∀ w ∈ 0 :: pre, w ≠ z.fresh := fun w hw => hne w (by
    exact mem_append_left post hw)
  have hnepost : ∀ w ∈ post, w ≠ z.fresh := fun w hw => hne w (mem_cons_of_mem 0 (mem_append_right pre hw))
  have hzero : (0 : ℕ) ≠ z.fresh := hne 0 mem_cons_self
  have hheight : ∀ {w : ℕ}, w ≠ z.fresh → (z.place update rank n e).height w = z.height w := fun hw => place_height hw
  have hheightnew : (z.place update rank n e).height z.fresh = n := by
    rw [height_pos _ hzero.symm, place_new]
  -- on the lowest level the new node is behind the last one of the first nodes
  obtain ⟨a0, ha0, hrank0⟩ := (hlast 0 h.levels.1).zero fun w hw => h.one_le_height (by
    rw [← cons_append]
    exact mem_append_left post hw)
  have hrank0 : rank 0 = pre.length := by
    have := congrArg List.length ha0
    rw [length_cons, length_append, length_cons, length_nil] at this
    omega
  have hforward0 : ((z.node (update 0)).level 0).forward = post.head? := by
    have hall : 0 :: (pre ++ post) = a0 ++ update 0 :: post := by
      rw [← cons_append, ha0, append_assoc]
      rfl
    have hmem : update 0 ∈ 0 :: (pre ++ post) := by
      rw [hall]
      exact mem_append_right a0 mem_cons_self
    rw [h.links a0 _ post hall 0 (h.one_le_height hmem)]
    cases post with
    | nil => rfl
    | cons w post =>
      have := h.one_le_height (mem_cons_of_mem 0 (mem_append_right pre (mem_cons_self (a := w) (l := post))))
      rw [link, if_pos (by omega)]
      rfl
  have hzeropre : (0 : ℕ) ∉ post := fun hmem => (nodup_cons.1 h.nodup).1 (mem_append_right pre hmem)
  have hlen : ∀ {a mid : List ℕ} {w : ℕ}, 0 :: pre = a ++ w :: mid → pre.length = a.length + mid.length := by
    intro a mid w hsplit
    have := congrArg List.length hsplit
    rw [length_cons, length_append, length_cons] at this
    omega
  have hnd : (0 :: pre).Nodup := h.nodup.sublist ((sublist_append_left pre post).cons_cons 0)
  -- a node that is not the last one on a level keeps its link, one that is gets the new node, or the same link over one node more
  have hlinks : ∀ a w b, 0 :: (pre ++ z.fresh :: post) = a ++ w :: b → ∀ i < (z.place update rank n e).height w,
      ((z.place update rank n e).node w).level i = link (z.place update rank n e).height i b := by
    intro a w b hsplit i hi
    rcases split_insert hsplit with ⟨mid, hpre, rfl⟩ | ⟨rfl, rfl, rfl⟩ | ⟨c, hpost, -⟩
    · have hw : w ≠ z.fresh := hnepre w (by
        rw [hpre]
        exact mem_append_right a mem_cons_self)
      have hmid : ∀ v ∈ mid, v ≠ z.fresh := fun v hv => hnepre v (by
        rw [hpre]
        exact mem_append_right a (mem_cons_of_mem w hv))
      rw [hheight hw] at hi
      have hlevel : i < z.level := hi.trans_le (h.height_le (by
        rw [← cons_append, hpre, append_assoc]
        exact mem_append_right a mem_cons_self))
      have hold := h.links a w (mid ++ post) (by rw [← cons_append, hpre, append_assoc]; rfl) i hi
      rw [place_node hw]
      dsimp only
      rcases low_or_found z.height i mid with hlow | ⟨c, v, c', rfl, hc, hv⟩
      · have hlow' : ∀ v ∈ mid, (z.place update rank n e).height v ≤ i := fun v hv => by
          rw [hheight (hmid v hv)]
          exact hlow v hv
        obtain ⟨hu, hr⟩ := (hlast i hlevel).unique ⟨a, mid, hpre, hi, hlow, rfl⟩
        rw [if_pos ⟨hlevel, hu⟩]
        by_cases hin : i < n
        · rw [if_pos hin, link_found hlow' (by rw [hheightnew]; exact hin), hrank0, hr, hlen hpre, Nat.add_sub_cancel_left]
        · rw [if_neg hin, hold, link_low hlow, link_low hlow', link, if_neg (by rw [hheightnew]; exact hin)]
          ext1
          · rw [link_congr fun v hv => (hheight (hnepost v hv)).symm]
          · rw [link_congr fun v hv => (hheight (hnepost v hv)).symm]
            exact Nat.add_assoc _ _ _
      · have hnot : update i ≠ w := by
          rintro rfl
          exact not_lastAt hnd hpre (mem_append_right c mem_cons_self) hv (hlast i hlevel)
        rw [if_neg fun hc => hnot hc.2, hold, link_prefix (mem_append_right c mem_cons_self) hv post (z.fresh :: post)]
        have hc' : ∀ u ∈ c, (z.place update rank n e).height u ≤ i := fun u hu => by
          rw [hheight (hmid u (mem_append_left _ hu))]
          exact hc u hu
        have hv' : i < (z.place update rank n e).height v := by
          rw [hheight (hmid v (mem_append_right c mem_cons_self))]
          exact hv
        rw [append_assoc, cons_append, link_found hc hv, link_found hc' hv']
    · rw [hheightnew] at hi
      have hlevel : i < z.level := hi.trans_le hle
      obtain ⟨a, mid, hpre, hgt, hlow, hr⟩ := hlast i hlevel
      have hold := h.links a (update i) (mid ++ b) (by rw [← cons_append, hpre, append_assoc]; rfl) i hgt
      rw [place_new]
      dsimp only
      rw [hold, link_low hlow, hrank0, hr, hlen hpre, Nat.add_sub_cancel_left, Nat.add_sub_cancel_left,
        link_congr fun v hv => (hheight (hnepost v hv)).symm]
    · have hmem : w ∈ post := by
        rw [hpost]
        exact mem_append_right c mem_cons_self
      have hw : w ≠ z.fresh := hnepost w hmem
      rw [hheight hw] at hi
      have hnot : ¬ (i < z.level ∧ update i = w) := by
        rintro ⟨hlevel, rfl⟩
        have hin := (hlast i hlevel).mem
        rcases mem_cons.1 hin with h0 | hin
        · rw [h0] at hmem
          exact hzeropre hmem
        · exact (nodup_append.1 (nodup_cons.1 h.nodup).2).2.2 _ hin _ hmem rfl
      rw [place_node hw]
      dsimp only
      rw [if_neg hnot, h.links (0 :: pre ++ c) w b (by rw [hpost, append_assoc]; rfl) i hi,
        link_congr fun v hv => (hheight (hnepost v (hpost ▸ mem_append_right c (mem_cons_of_mem w hv)))).symm]
  have helem : ∀ {l : List ℕ} {es' : List α}, (∀ w ∈ l, w ≠ z.fresh) → l.map (fun w => (z.node w).elem) = es'.map some →
      l.map (fun w => ((z.place update rank n e).node w).elem) = es'.map some := by
    intro l es' hl hes
    rw [← hes]
    exact map_congr_left fun w hw => by rw [place_node (hl w hw)]
  have hsplit := h.elems
  rw [map_append, map_append] at hsplit
  obtain ⟨hpre', hpost'⟩ := append_inj hsplit (by rw [length_map, length_map, hea])
  refine ⟨?_, fun w hw => ?_, h.levels, fun w hw => ?_, hlinks, fun i hi => ?_, ?_, ?_, fun a w y b hsplit => ?_, ?_, ?_⟩
  · rw [(perm_middle.cons 0).nodup_iff]
    refine nodup_cons.2 ⟨?_, nodup_cons.2 ⟨fun hmem => hnew (mem_cons_of_mem 0 hmem), (nodup_cons.1 h.nodup).2⟩⟩
    rw [mem_cons, not_or]
    exact ⟨hzero, (nodup_cons.1 h.nodup).1⟩
  · have hfresh : (z.place update rank n e).fresh = z.fresh + 1 := rfl
    by_cases hc : w = z.fresh
    · omega
    · refine Nat.lt_succ_of_lt (h.fresh w ?_)
      rcases mem_cons.1 hw with rfl | hw
      · exact mem_cons_self
      · refine mem_cons_of_mem 0 ?_
        rcases mem_append.1 hw with hw | hw
        · exact mem_append_left post hw
        · exact mem_append_right pre ((mem_cons.1 hw).resolve_left hc)
  · by_cases hc : w = z.fresh
    · rw [hc, place_new]
      exact ⟨hn, hle⟩
    · rw [place_node hc]
      refine h.heights w ?_
      rcases mem_append.1 hw with hw | hw
      · exact mem_append_left post hw
      · exact mem_append_right pre ((mem_cons.1 hw).resolve_left hc)
  · rw [place_node hzero]
    have hi : z.level ≤ i := hi
    dsimp only
    rw [if_neg (by omega)]
    exact h.unused i hi
  · rw [map_append, map_cons, map_append, map_cons, place_new, helem (fun w hw => hnepre w (mem_cons_of_mem 0 hw)) hpre',
      helem hnepost hpost']
  · rw [place_node hzero]
    exact h.header
  · -- the node before the new one, the new one, and the one behind it
    have hsplit' : 0 :: (pre ++ z.fresh :: post) = (a ++ [w]) ++ y :: b := by rw [hsplit, append_assoc]; rfl
    rcases split_insert hsplit' with ⟨mid, hpre, -⟩ | ⟨rfl, hpre, rfl⟩ | ⟨c, hpost, hac⟩
    · have hy : y ∈ 0 :: pre := by
        rw [hpre]
        exact mem_append_right _ mem_cons_self
      have hnot : ((z.node (update 0)).level 0).forward ≠ some y := by
        rw [hforward0]
        intro hc
        have hypost : y ∈ post := mem_of_head? hc
        rcases mem_cons.1 hy with rfl | hy
        · exact hzeropre hypost
        · exact (nodup_append.1 (nodup_cons.1 h.nodup).2).2.2 _ hy _ hypost rfl
      rw [place_node (hnepre y hy)]
      rw [if_neg hnot]
      exact h.backward a w y (mid ++ post) (by rw [← cons_append, hpre, append_assoc, append_assoc]; rfl)
    · rw [place_new]
      have hw : update 0 = w := by
        have := ha0.symm.trans hpre.symm
        exact singleton_injective (append_inj' this rfl).2
      rw [hw]
    · have hy : y ∈ post := by
        rw [hpost]
        exact mem_append_right c mem_cons_self
      rw [place_node (hnepost y hy)]
      dsimp only
      rw [hforward0, hpost]
      rcases eq_nil_or_concat c with rfl | ⟨c', v, rfl⟩
      · -- the new node is before it
        have hw : w = z.fresh := singleton_injective (append_inj' hac rfl).2
        rw [nil_append, List.head?_cons, if_pos rfl, hw, if_neg hzero.symm]
      · have hw : w = v := by
          rw [concat_eq_append, ← cons_append, ← append_assoc] at hac
          exact singleton_injective (append_inj' hac rfl).2
        rw [concat_eq_append] at hpost ⊢
        have hnot : ((c' ++ [v]) ++ y :: b).head? ≠ some y := by
          intro hc
          have hndpost : (c' ++ [v] ++ y :: b).Nodup := hpost ▸ (nodup_append.1 (nodup_cons.1 h.nodup).2).2.1
          have hmem : y ∈ c' ++ [v] := by
            cases hcv : c' ++ [v] with
            | nil => exact absurd hcv (append_ne_nil_of_right_ne_nil c' (cons_ne_nil v []))
            | cons u q =>
              rw [hcv, cons_append, List.head?_cons] at hc
              rw [Option.some.inj hc]
              exact mem_cons_self
          exact (nodup_append.1 hndpost).2.2 y hmem y mem_cons_self rfl
        rw [if_neg hnot, hw]
        exact h.backward (0 :: pre ++ c') v y b (by rw [hpost, append_assoc, append_assoc]; rfl)
  · change (if ((z.node (update 0)).level 0).forward.isSome then z.tail else some z.fresh) = _
    rw [hforward0]
    cases post with
    | nil =>
      rw [List.getLast?_append, List.getLast?_singleton]
      rfl
    | cons v post =>
      rw [List.head?_cons, isSome_some, if_pos rfl, h.tail, List.getLast?_append, List.getLast?_append, List.getLast?_cons_cons]
  · change z.length + 1 = _
    rw [h.length, length_append, length_append, length_cons]
    omega

end Place

variable {eb : List α}

/-- **A new node behind the nodes of a search.** -/
theorem insertNode_layout {s : Found} (h : Layout maxLevel z (pre ++ post) (ea ++ eb))
    (hea : ea.length = pre.length) (hs : Searched z pre s) (hn : 1 ≤ n) (hmax : n ≤ maxLevel) :
    Layout maxLevel (z.insertNode s n e) (pre ++ z.fresh :: post) (ea ++ e :: eb) := by
  obtain ⟨hraise, hle, hlevel, hfresh, hheight⟩ := raise_layout h hmax
  have hpre : ∀ w ∈ pre, (z.raise n).height w = z.height w := fun w hw => hheight w (mem_append_left post hw)
  rw [← hfresh]
  refine place_layout hraise hea (fun i hi => ?_) hn hle
  by_cases hnew : z.level ≤ i
  · -- a new level has no node but the header
    rw [if_pos hnew, if_pos hnew]
    refine ⟨[], pre, rfl, ?_, fun w hw => ?_, rfl⟩
    · rwa [height, if_pos rfl]
    · rw [hpre w hw]
      exact (h.height_le (mem_cons_of_mem 0 (mem_append_left post hw))).trans hnew
  · rw [if_neg hnew, if_neg hnew]
    obtain ⟨a, b, hsplit, hx, hb, hr⟩ := hs.update i (not_le.1 hnew)
    refine ⟨a, b, hsplit, ?_, fun w hw => ?_, hr⟩
    · by_cases h0 : s.update i = 0
      · rw [h0, height, if_pos rfl]
        omega
      · have hmem : s.update i ∈ 0 :: pre := by
          rw [hsplit]
          exact mem_append_right a mem_cons_self
        rw [hpre _ ((mem_cons.1 hmem).resolve_left h0)]
        exact hx
    · have hmem : w ∈ pre := by
        cases a with
        | nil =>
          rw [(List.cons.inj hsplit).2]
          exact hw
        | cons v a =>
          rw [(List.cons.inj hsplit).2]
          exact mem_append_right a (mem_cons_of_mem _ hw)
      rw [hpre w hmem]
      exact hb w hw

theorem link_mem (h : (link hgt i l).forward = some y) : y ∈ l := by
  rcases low_or_found hgt i l with hlow | ⟨a, w, b, rfl, ha, hw⟩
  · rw [link_end hlow] at h
    cases h
  · rw [link_found ha hw] at h
    rw [← Option.some.inj h]
    exact mem_append_right a mem_cons_self

theorem lower_spec (header : ℕ → SkipLink) : ∀ n, 1 ≤ n → 1 ≤ lower header n ∧ lower header n ≤ n ∧
    ∀ i, lower header n ≤ i → i < n → (header i).forward = none := by
  intro n
  induction n with
  | zero =>
    intro h
    exact absurd h (by omega)
  | succ n ih =>
    intro _
    rw [lower]
    by_cases hc : 1 < n + 1 ∧ (header n).forward = none
    · rw [if_pos hc]
      obtain ⟨h1, h2, h3⟩ := ih (by omega)
      refine ⟨h1, by omega, fun i hi hlt => ?_⟩
      rcases Nat.lt_succ_iff_lt_or_eq.1 hlt with hlt | rfl
      · exact h3 i hi hlt
      · exact hc.2
    · rw [if_neg hc]
      exact ⟨by omega, le_refl _, fun i hi hlt => absurd hi (by omega)⟩

theorem deleteNode_node (x : ℕ) (update : ℕ → ℕ) (y : ℕ) : (z.deleteNode x update).node y = { z.node y with
      backward := if ((z.node x).level 0).forward = some y then (z.node x).backward else (z.node y).backward
      level := fun i => if i < z.level ∧ update i = y then
        (if ((z.node y).level i).forward = some x then ⟨((z.node x).level i).forward, ((z.node y).level i).span + ((z.node x).level i).span - 1⟩
          else { (z.node y).level i with span := ((z.node y).level i).span - 1 })
        else (z.node y).level i } := by
  unfold deleteNode
  dsimp only
  by_cases hb : ((z.node x).level 0).forward = some y
  · rw [if_pos hb, if_pos hb]
    rfl
  · rw [if_neg hb, if_neg hb]
    rfl

theorem split_append (h : 0 :: (pre ++ post) = a ++ y :: b) :
    (∃ mid, 0 :: pre = a ++ y :: mid ∧ b = mid ++ post) ∨ ∃ c, post = c ++ y :: b ∧ a = 0 :: pre ++ c := by
  rw [← cons_append] at h
  rcases append_eq_append_iff.1 h with ⟨c, rfl, hc⟩ | ⟨c, hc, hb⟩
  · exact Or.inr ⟨c, hc, rfl⟩
  · cases c with
    | nil =>
      rw [append_nil] at hc
      exact Or.inr ⟨[], hb.symm, by rw [append_nil]; exact hc.symm⟩
    | cons w mid =>
      obtain ⟨rfl, rfl⟩ := List.cons.inj hb
      exact Or.inl ⟨mid, hc, rfl⟩

variable {update rank : ℕ → ℕ}

/-- **The node behind the last nodes of the levels is taken out.** -/
theorem deleteNode_layout (h : Layout maxLevel z (pre ++ x :: post) (ea ++ e :: eb))
    (hea : ea.length = pre.length) (hlast : ∀ i < z.level, LastAt z.height (0 :: pre) i (update i) (rank i)) :
    Layout maxLevel (z.deleteNode x update) (pre ++ post) (ea ++ eb) := by
  have hnodup := (perm_middle.cons 0).nodup_iff.1 h.nodup
  have hxpost : x ∉ post := fun hmem => (nodup_cons.1 (nodup_cons.1 hnodup).2).1 (mem_append_right pre hmem)
  have hmem : ∀ {w : ℕ}, w ∈ 0 :: (pre ++ post) → w ∈ 0 :: (pre ++ x :: post) := by
    intro w hw
    rcases mem_cons.1 hw with rfl | hw
    · exact mem_cons_self
    · refine mem_cons_of_mem 0 ?_
      rcases mem_append.1 hw with hw | hw
      · exact mem_append_left _ hw
      · exact mem_append_right pre (mem_cons_of_mem x hw)
  have hnd : (0 :: pre).Nodup := h.nodup.sublist ((sublist_append_left pre (x :: post)).cons_cons 0)
  have hxlink : ∀ i < z.height x, (z.node x).level i = link z.height i post := h.links (0 :: pre) x post rfl
  -- the links, by the heights that there were
  have hlinks : ∀ a w b, 0 :: (pre ++ post) = a ++ w :: b → ∀ i < z.height w, ((z.deleteNode x update).node w).level i = link z.height i b := by
    intro a w b hsplit i hi
    rw [deleteNode_node]
    dsimp only
    rcases split_append hsplit with ⟨mid, hpre, rfl⟩ | ⟨c, hpost, -⟩
    · have hold := h.links a w (mid ++ x :: post) (by rw [← cons_append, hpre, append_assoc]; rfl) i hi
      have hlevel : i < z.level := hi.trans_le (h.height_le (by
        rw [← cons_append, hpre, append_assoc]
        exact mem_append_right a mem_cons_self))
      rcases low_or_found z.height i mid with hlow | ⟨c, v, c', rfl, hc, hv⟩
      · obtain ⟨hu, -⟩ := (hlast i hlevel).unique ⟨a, mid, hpre, hi, hlow, rfl⟩
        rw [if_pos ⟨hlevel, hu⟩, hold, show link z.height i (mid ++ post) = _ from link_low hlow]
        by_cases hix : i < z.height x
        · rw [link_found hlow hix, if_pos rfl, hxlink i hix]
          ext1
          · rfl
          · change mid.length + 1 + (link z.height i post).span - 1 = mid.length + (link z.height i post).span
            omega
        · rw [link_low hlow, link, if_neg hix, if_neg fun hc => hxpost (link_mem hc)]
          ext1
          · rfl
          · change mid.length + ((link z.height i post).span + 1) - 1 = mid.length + (link z.height i post).span
            omega
      · have hnot : update i ≠ w := by
          rintro rfl
          exact not_lastAt hnd hpre (mem_append_right c mem_cons_self) hv (hlast i hlevel)
        rw [if_neg fun hc => hnot hc.2, hold, link_prefix (mem_append_right c mem_cons_self) hv (x :: post) post]
    · have hw : w ∈ post := by
        rw [hpost]
        exact mem_append_right c mem_cons_self
      have hnot : ¬ (i < z.level ∧ update i = w) := by
        rintro ⟨hlevel, rfl⟩
        have hin := (hlast i hlevel).mem
        rcases mem_cons.1 hin with h0 | hin
        · rw [h0] at hw
          exact (nodup_cons.1 h.nodup).1 (mem_append_right pre (mem_cons_of_mem x hw))
        · exact (nodup_append.1 (nodup_cons.1 h.nodup).2).2.2 _ hin _ (mem_cons_of_mem x hw) rfl
      rw [if_neg hnot]
      exact h.links (0 :: pre ++ x :: c) w b (by rw [hpost, append_assoc]; rfl) i hi
  -- the levels on which nothing is left are given up
  obtain ⟨hl1, hl2, hl3⟩ := lower_spec ((z.deleteNode x update).node 0).level z.level h.levels.1
  have hlevel : (z.deleteNode x update).level = lower ((z.deleteNode x update).node 0).level z.level := by
    have hsame : (z.deleteNode x update).level = lower (z.setLinks z.level update (fun i l =>
      if l.forward = some x then ⟨((z.node x).level i).forward, l.span + ((z.node x).level i).span - 1⟩ else { l with span := l.span - 1 }) 0).level
      z.level := rfl
    rw [hsame, deleteNode_node]
    rfl
  rw [← hlevel] at hl1 hl2 hl3
  have hnodeheight : ∀ w, ((z.deleteNode x update).node w).height = (z.node w).height := fun w => by rw [deleteNode_node]
  have hheight : ∀ w, w ≠ 0 → (z.deleteNode x update).height w = z.height w := fun w hw => by
    rw [height_pos w hw, height_pos w hw, hnodeheight]
  have hne : ∀ w ∈ pre ++ post, w ≠ 0 := fun w hw hc => (nodup_cons.1 hnodup).1 (hc ▸ mem_cons_of_mem x hw)
  have htail : ∀ {a b : List ℕ} {w : ℕ}, 0 :: (pre ++ post) = a ++ w :: b → ∀ v ∈ b, v ∈ pre ++ post := by
    intro a b w hsplit v hv
    cases a with
    | nil =>
      rw [(List.cons.inj hsplit).2]
      exact hv
    | cons u a =>
      rw [(List.cons.inj hsplit).2]
      exact mem_append_right a (mem_cons_of_mem w hv)
  have hlow : ∀ w ∈ pre ++ post, (z.node w).height ≤ (z.deleteNode x update).level := by
    intro w hw
    obtain ⟨hpos, hle⟩ := h.heights w (by
      rcases mem_append.1 hw with hw | hw
      · exact mem_append_left _ hw
      · exact mem_append_right pre (mem_cons_of_mem x hw))
    by_contra hgt
    -- the header would have a node on a level that is given up
    have hnone := hl3 ((z.node w).height - 1) (by omega) (by omega)
    have hlink := hlinks [] 0 (pre ++ post) rfl ((z.node w).height - 1) (by rw [height, if_pos rfl]; omega)
    rw [hlink] at hnone
    rcases low_or_found z.height ((z.node w).height - 1) (pre ++ post) with hl | ⟨a, v, b, hab, ha, hv⟩
    · have := hl w hw
      rw [height_pos w (hne w hw)] at this
      omega
    · rw [hab, link_found ha hv] at hnone
      cases hnone
  have hforward : ((z.node x).level 0).forward = post.head? := by
    have hx : 0 < z.height x := h.one_le_height (mem_cons_of_mem 0 (mem_append_right pre mem_cons_self))
    rw [hxlink 0 hx]
    cases post with
    | nil => rfl
    | cons v post =>
      have := h.one_le_height (x := v) (mem_cons_of_mem 0 (mem_append_right pre (mem_cons_of_mem x mem_cons_self)))
      rw [link, if_pos (by omega)]
      rfl
  have hsplit := h.elems
  rw [map_append, map_append, map_cons, map_cons] at hsplit
  obtain ⟨hpre', hpost'⟩ := append_inj hsplit (by rw [length_map, length_map, hea])
  refine ⟨(nodup_cons.2 ⟨fun hc => hne 0 hc rfl, (nodup_cons.1 (nodup_cons.1 hnodup).2).2⟩), fun w hw => h.fresh w (hmem hw),
    ⟨hl1, hl2.trans h.levels.2⟩, fun w hw => ?_, fun a w b hs i hi => ?_, fun i hi => ?_, ?_, ?_, fun a w y b hs => ?_, ?_, ?_⟩
  · rw [hnodeheight]
    exact ⟨(h.heights w (by
      rcases mem_append.1 hw with hw | hw
      · exact mem_append_left _ hw
      · exact mem_append_right pre (mem_cons_of_mem x hw))).1, hlow w hw⟩
  · rw [link_congr fun v hv => hheight v (hne v (htail hs v hv))]
    refine hlinks a w b hs i ?_
    by_cases hw : w = 0
    · rw [hw, height, if_pos rfl] at hi ⊢
      exact hi.trans_le hl2
    · rwa [hheight w hw] at hi
  · by_cases hlt : i < z.level
    · exact hl3 i hi hlt
    · rw [deleteNode_node]
      dsimp only
      rw [if_neg fun hc => hlt hc.1]
      exact h.unused i (not_lt.1 hlt)
  · have hsame : ∀ w, ((z.deleteNode x update).node w).elem = (z.node w).elem := fun w => by rw [deleteNode_node]
    simp only [hsame]
    rw [map_append, map_append, hpre', (List.cons.inj hpost').2]
  · rw [deleteNode_node]
    exact h.header
  · rw [deleteNode_node]
    rw [hforward]
    have hs' : 0 :: (pre ++ post) = (a ++ [w]) ++ y :: b := by rw [hs, append_assoc]; rfl
    rcases split_append hs' with ⟨mid, hpre, -⟩ | ⟨c, hpost, hac⟩
    · have hnot : post.head? ≠ some y := by
        intro hc
        have hypost : y ∈ post := mem_of_head? hc
        have hy : y ∈ 0 :: pre := by
          rw [hpre]
          exact mem_append_right _ mem_cons_self
        rcases mem_cons.1 hy with rfl | hy
        · exact hne 0 (mem_append_right pre hypost) rfl
        · exact (nodup_append.1 (nodup_cons.1 h.nodup).2).2.2 _ hy _ (mem_cons_of_mem x hypost) rfl
      rw [if_neg hnot]
      exact h.backward a w y (mid ++ x :: post) (by rw [← cons_append, hpre, append_assoc, append_assoc]; rfl)
    · rcases eq_nil_or_concat c with rfl | ⟨c', v, rfl⟩
      · -- the node behind the one that is taken out
        rw [append_nil] at hac
        rw [hpost, nil_append, List.head?_cons, if_pos rfl]
        exact h.backward a w x post (by rw [← cons_append, ← hac, append_assoc]; rfl)
      · have hw : w = v := by
          rw [concat_eq_append, ← append_assoc] at hac
          exact singleton_injective (append_inj' hac rfl).2
        rw [concat_eq_append] at hpost
        have hnot : post.head? ≠ some y := by
          rw [hpost]
          intro hc
          have hndpost : (c' ++ [v] ++ y :: b).Nodup :=
            hpost ▸ (nodup_append.1 (nodup_cons.1 (nodup_cons.1 hnodup).2).2).2.1
          have hmem : y ∈ c' ++ [v] := by
            cases hcv : c' ++ [v] with
            | nil => exact absurd hcv (append_ne_nil_of_right_ne_nil c' (cons_ne_nil v []))
            | cons u q =>
              rw [hcv, cons_append, List.head?_cons] at hc
              rw [Option.some.inj hc]
              exact mem_cons_self
          exact (nodup_append.1 hndpost).2.2 y hmem y mem_cons_self rfl
        rw [if_neg hnot, hw]
        exact h.backward (0 :: pre ++ x :: c') v y b (by rw [hpost, append_assoc, append_assoc]; rfl)
  · change (if ((z.node x).level 0).forward.isSome then z.tail else (z.node x).backward) = _
    rw [hforward]
    cases post with
    | nil =>
      rw [append_nil]
      rcases eq_nil_or_concat pre with rfl | ⟨p, v, rfl⟩
      · exact h.backward [] 0 x [] rfl
      · have hv : v ≠ 0 := hne v (by rw [append_nil, concat_eq_append]; exact mem_append_right p mem_cons_self)
        have hb := h.backward (0 :: p) v x [] (by rw [concat_eq_append, append_assoc]; rfl)
        rw [if_neg hv] at hb
        rw [concat_eq_append, List.getLast?_append, List.getLast?_singleton]
        exact hb
    | cons v post =>
      rw [List.head?_cons, isSome_some, if_pos rfl, h.tail, List.getLast?_append, List.getLast?_append, List.getLast?_cons_cons]
  · change z.length - 1 = _
    rw [h.length, length_append, length_append, length_cons]
    omega

theorem deleteNode_lastAt (h : Layout maxLevel z (pre ++ x :: post) es)
    (hlast : ∀ i < z.level, LastAt z.height (0 :: pre) i (update i) (rank i)) :
    ∀ i < (z.deleteNode x update).level, LastAt (z.deleteNode x update).height (0 :: pre) i (update i) (rank i) := by
  intro i hi
  have hle : (z.deleteNode x update).level ≤ z.level := (lower_spec _ z.level h.levels.1).2.1
  obtain ⟨a, b, hab, hx, hb, hr⟩ := hlast i (hi.trans_le hle)
  have hheight : ∀ w, w ≠ 0 → (z.deleteNode x update).height w = z.height w := by
    intro w hw
    rw [height_pos w hw, height_pos w hw, deleteNode_node]
  refine ⟨a, b, hab, ?_, fun w hw => ?_, hr⟩
  · by_cases h0 : update i = 0
    · rwa [h0, height, if_pos rfl]
    · rwa [hheight _ h0]
  · have hpre : w ∈ pre := by
      cases a with
      | nil =>
        rw [(List.cons.inj hab).2]
        exact hw
      | cons v a =>
        rw [(List.cons.inj hab).2]
        exact mem_append_right a (mem_cons_of_mem _ hw)
    rw [hheight w (h.ne_zero (mem_append_left _ hpre))]
    exact hb w hw

end SkipList

end KVStores
