import KVStores.Qdbm.CabinDump

/-!
# The pages of a Villa database

What `vlleafsave` and `vlnodesave` (`villa.c`) write into the Depot database and what `vlleafload` and `vlnodeload` read: numbers of
variable length, keys and values behind their sizes.

* `readLeaf_leafBytes`, `readNode_nodeBytes`: **a page is read back.**
-/

namespace KVStores.VillaDb

open List Option Function

open Cabin

def nodeIdMin : ℤ := 100000000

def pageBufSiz : ℕ := 32768

/-- `VLREC`: the list of the rest is empty where the source has none. -/
structure Rec where
  key : Bytes
  first : Bytes
  rest : List Bytes
deriving DecidableEq

structure Leaf where
  id : ℤ
  dirty : Bool
  recs : List Rec
  prev : ℤ
  next : ℤ
deriving DecidableEq

structure Idx where
  pid : ℤ
  key : Bytes
deriving DecidableEq

structure Node where
  id : ℤ
  dirty : Bool
  heir : ℤ
  idxs : List Idx
deriving DecidableEq

/-- A record of a page of `vlleafsave`. -/
def recBytes (r : Rec) : Bytes := sized r.key ++ (setVnumBuf (1 + r.rest.length) ++ (r.first :: r.rest).flatMap sized)

def sideNum (id : ℤ) : ℤ := if id = -1 then nodeIdMin - 1 else id

/-- The page of `vlleafsave`, before it is compressed. -/
def leafBytes (leaf : Leaf) : Bytes := setVnumBuf (sideNum leaf.prev) ++ (setVnumBuf (sideNum leaf.next) ++ leaf.recs.flatMap recBytes)

/-- Behind `siz` bytes. -/
def skip (b : Left) (siz : ℤ) : Left := (b.1.drop siz.toNat, b.2 - siz)

/-- The values of a record: `for(i = 0; i < vnum && size >= 1; i++)`. -/
@[grind =] def readValues : ℕ → Left → Result (List Bytes × Left)
  | 0, b => .ok ([], b)
  | vnum + 1, b =>
    if b.2 < 1 then .ok ([], b)
    else
      (readNum b).bind fun (vsiz, b) =>
        if b.2 < vsiz then .ok ([], b)
        else (bytesAt b.1 vsiz).bind fun v => (readValues vnum (skip b vsiz)).map fun r => (v :: r.1, r.2)

/-- The records of a page: `while(size >= 1)` of `vlleafload`. -/
@[grind =] def readRecs : ℕ → Left → Result (List Rec)
  | 0, _ => .ok []
  | fuel + 1, b =>
    if b.2 < 1 then .ok []
    else
      (readNum b).bind fun (ksiz, b) =>
        if b.2 < ksiz then .ok []
        else
          (readNum (skip b ksiz)).bind fun (vnum, b') =>
            if vnum < 1 ∨ b'.2 < 1 then .ok []
            else
              (readValues vnum.toNat b').bind fun (vals, b'') =>
                match vals with
                | [] => readRecs fuel b''
                | first :: rest => (bytesAt b.1 ksiz).bind fun key => (readRecs fuel b'').map fun recs => ⟨key, first, rest⟩ :: recs

def readSide (b : Left) : Result (ℤ × Left) :=
  if b.2 < 1 then .ok (-1, b) else (readNum b).map fun r => (if nodeIdMin - 1 ≤ r.1 then -1 else r.1, r.2)

/-- The leaf that `vlleafload` makes of a page. -/
def readLeaf (id : ℤ) (page : Bytes) : Result Leaf :=
  (readSide (page, page.length)).bind fun (prev, b) =>
    (readSide b).bind fun (next, b) => (readRecs page.length b).map fun recs => ⟨id, false, recs, prev, next⟩

def SideOk (id : ℤ) : Prop := id = -1 ∨ 0 ≤ id ∧ id < nodeIdMin - 1

/-- A leaf that a page can hold. The size of a page is an `int`. -/
structure Leaf.Savable (leaf : Leaf) : Prop where
  prev : SideOk leaf.prev
  next : SideOk leaf.next
  fits : (leafBytes leaf).length < 2 ^ 31

variable {num : ℤ} {fuel : ℕ} {rest v : Bytes} {r : Rec} {leaf : Leaf} {node : Node}

theorem readNum_front (h : 0 ≤ num) (hint : num < 2 ^ 31) (rest : Bytes) :
    readNum (setVnumBuf num ++ rest, (setVnumBuf num ++ rest).length) = .ok (num, rest, rest.length) := by
  rw [readNum_set h hint le_rfl, length_append]
  congr 3
  omega

theorem readNum_element (hint : v.length < 2 ^ 31) (rest : Bytes) :
    readNum (sized v ++ rest, (sized v ++ rest).length) = .ok ((v.length : ℤ), v ++ rest, (v ++ rest).length) := by
  rw [sized, append_assoc]
  exact readNum_front (Int.natCast_nonneg _) (by omega) _

theorem skip_front (v rest : Bytes) : skip (v ++ rest, ((v ++ rest).length : ℕ)) v.length = (rest, (rest.length : ℤ)) := by
  unfold skip
  rw [Int.toNat_natCast, drop_left, length_append]
  congr 1
  omega

theorem sized_front (v rest : Bytes) : ¬((sized v ++ rest).length : ℤ) < 1 := by
  have := sized_pos v
  rw [length_append]
  omega

theorem front_fits (v rest : Bytes) : ¬((v ++ rest).length : ℤ) < v.length := by
  rw [length_append]
  omega

theorem length_le_sized (v : Bytes) : v.length ≤ (sized v).length := by
  rw [sized_length]
  omega

theorem readValues_sized (rest : Bytes) : ∀ {vals : List Bytes}, (vals.flatMap sized).length < 2 ^ 31 →
    readValues vals.length (vals.flatMap sized ++ rest, (vals.flatMap sized ++ rest).length) = .ok (vals, rest, rest.length) := by
  intro vals
  induction vals with
  | nil => exact fun _ => rfl
  | cons v vals ih =>
    intro hfits
    have hv := length_le_sized v
    rw [flatMap_cons, length_append] at hfits
    rw [flatMap_cons, append_assoc, length_cons, readValues]
    rw [if_neg (sized_front v _), readNum_element (by omega), ok_bind]
    dsimp only
    rw [if_neg (front_fits v _), bytesAt_append, ok_bind, skip_front, ih (by omega), ok_map]

theorem readRecs_front (fuel : ℕ) (r : Rec) (rest : Bytes) (hfits : (recBytes r).length < 2 ^ 31) :
    readRecs (fuel + 1) (recBytes r ++ rest, (recBytes r ++ rest).length) =
      (readRecs fuel (rest, rest.length)).map fun recs => r :: recs := by
  have hkey := length_le_sized r.key
  have hcount := length_le_flatMap (r.first :: r.rest)
  have hvals : ((1 : ℤ) + r.rest.length).toNat = (r.first :: r.rest).length := by
    rw [length_cons]
    omega
  rw [recBytes, length_append, length_append] at hfits
  have hvalues : ¬(((r.first :: r.rest).flatMap sized ++ rest).length : ℤ) < 1 := by
    rw [flatMap_cons, append_assoc]
    exact sized_front r.first _
  rw [recBytes, append_assoc, append_assoc, readRecs]
  rw [if_neg (sized_front r.key _), readNum_element (by omega), ok_bind]
  dsimp only
  rw [if_neg (front_fits r.key _), skip_front, readNum_front (by omega) (by omega), ok_bind]
  rw [if_neg (not_or.2 ⟨by omega, hvalues⟩), hvals, readValues_sized rest (by omega), ok_bind]
  dsimp only
  rw [bytesAt_append, ok_bind]

theorem readRecs_flatMap : ∀ {recs : List Rec} {fuel : ℕ}, recs.length ≤ fuel → (recs.flatMap recBytes).length < 2 ^ 31 →
    readRecs fuel (recs.flatMap recBytes, (recs.flatMap recBytes).length) = .ok recs := by
  intro recs
  induction recs with
  | nil =>
    intro fuel _ _
    cases fuel with
    | zero => rfl
    | succ fuel => exact if_pos Int.one_pos
  | cons r recs ih =>
    intro fuel hfuel hfits
    obtain ⟨fuel, rfl⟩ := Nat.exists_eq_succ_of_ne_zero (Nat.pos_iff_ne_zero.1 (Nat.zero_lt_of_lt hfuel))
    rw [flatMap_cons, length_append] at hfits
    rw [flatMap_cons, readRecs_front fuel r _ (by omega), ih (Nat.le_of_succ_le_succ hfuel) (by omega), ok_map]

theorem sideNum_bounds {id : ℤ} (h : SideOk id) : 0 ≤ sideNum id ∧ sideNum id < 2 ^ 31 := by
  unfold sideNum nodeIdMin
  unfold SideOk nodeIdMin at h
  split <;> omega

theorem readSide_front {id : ℤ} (h : SideOk id) (rest : Bytes) :
    readSide (setVnumBuf (sideNum id) ++ rest, (setVnumBuf (sideNum id) ++ rest).length) = .ok (id, rest, rest.length) := by
  obtain ⟨h₀, hint⟩ := sideNum_bounds h
  have hpos := setVnumBuf_pos h₀
  have hback : (if nodeIdMin - 1 ≤ sideNum id then -1 else sideNum id) = id := by
    unfold sideNum
    rcases h with rfl | ⟨h1, h2⟩
    · rfl
    · rw [if_neg (show id ≠ -1 by omega), if_neg (not_le.2 h2)]
  rw [readSide, if_neg (by rw [length_append]; omega), readNum_front h₀ hint, ok_map, hback]

theorem length_le_recBytes (recs : List Rec) : recs.length ≤ (recs.flatMap recBytes).length := by
  induction recs with
  | nil => exact Nat.zero_le _
  | cons r recs ih =>
    have hpos := sized_pos r.key
    rw [flatMap_cons, length_append, length_cons, recBytes, length_append]
    omega

theorem readLeaf_leafBytes (h : leaf.Savable) : readLeaf leaf.id (leafBytes leaf) = .ok { leaf with dirty := false } := by
  have hcount := length_le_recBytes leaf.recs
  have hfits := h.fits
  have hlen : (leafBytes leaf).length = (setVnumBuf (sideNum leaf.prev)).length +
      ((setVnumBuf (sideNum leaf.next)).length + (leaf.recs.flatMap recBytes).length) := by
    rw [leafBytes, length_append, length_append]
  rw [readLeaf]
  conv_lhs =>
    rw [leafBytes]
  rw [readSide_front h.prev, ok_bind]
  dsimp only
  rw [readSide_front h.next, ok_bind]
  rw [← leafBytes, readRecs_flatMap (by omega) (by omega), ok_map]

/-- An index of a page of `vlnodesave`. -/
def idxBytes (i : Idx) : Bytes := setVnumBuf i.pid ++ sized i.key

/-- The page of `vlnodesave`. -/
def nodeBytes (node : Node) : Bytes := setVnumBuf node.heir ++ node.idxs.flatMap idxBytes

/-- The indexes of a page: `while(size >= 1)` of `vlnodeload`. -/
@[grind =] def readIdxs : ℕ → Left → Result (List Idx)
  | 0, _ => .ok []
  | fuel + 1, b =>
    if b.2 < 1 then .ok []
    else
      (readNum b).bind fun (pid, b) =>
        if b.2 < 1 then .ok []
        else
          (readNum b).bind fun (ksiz, b) =>
            if b.2 < ksiz then .ok []
            else (bytesAt b.1 ksiz).bind fun key => (readIdxs fuel (skip b ksiz)).map fun idxs => ⟨pid, key⟩ :: idxs

/-- The node that `vlnodeload` makes of a page. -/
def readNode (id : ℤ) (page : Bytes) : Result (Option Node) :=
  (if page.length < 1 then .ok (-1, page, page.length) else readNum (page, page.length)).bind fun (heir, b) =>
    if heir < 0 then .ok none else (readIdxs page.length b).map fun idxs => some ⟨id, false, heir, idxs⟩

def PidOk (pid : ℤ) : Prop := 0 ≤ pid ∧ pid < 2 ^ 31

instance (pid : ℤ) : Decidable (PidOk pid) := inferInstanceAs (Decidable (_ ∧ _))

structure Node.Savable (node : Node) : Prop where
  heir : PidOk node.heir
  pids : ∀ i ∈ node.idxs, PidOk i.pid
  fits : (nodeBytes node).length < 2 ^ 31

theorem idxBytes_pos {i : Idx} (h : PidOk i.pid) : 0 < (idxBytes i).length := by
  have hpos := setVnumBuf_pos h.1
  rw [idxBytes, length_append]
  omega

theorem readIdxs_flatMap : ∀ {idxs : List Idx} {fuel : ℕ}, (∀ i ∈ idxs, PidOk i.pid) → idxs.length ≤ fuel →
    (idxs.flatMap idxBytes).length < 2 ^ 31 → readIdxs fuel (idxs.flatMap idxBytes, (idxs.flatMap idxBytes).length) = .ok idxs := by
  intro idxs
  induction idxs with
  | nil =>
    intro fuel _ _ _
    cases fuel with
    | zero => rfl
    | succ fuel => exact if_pos Int.one_pos
  | cons i idxs ih =>
    intro fuel hp hfuel hfits
    obtain ⟨fuel, rfl⟩ := Nat.exists_eq_succ_of_ne_zero (Nat.pos_iff_ne_zero.1 (Nat.zero_lt_of_lt hfuel))
    have hi : PidOk i.pid := hp i mem_cons_self
    have hpos := setVnumBuf_pos hi.1
    have hkey := length_le_sized i.key
    rw [flatMap_cons, idxBytes, append_assoc, length_append, length_append] at hfits
    rw [flatMap_cons, idxBytes, append_assoc, readIdxs]
    rw [if_neg (by rw [length_append]; omega), readNum_front hi.1 hi.2, ok_bind]
    dsimp only
    rw [if_neg (sized_front i.key _), readNum_element (by omega), ok_bind]
    rw [if_neg (front_fits i.key _), bytesAt_append, ok_bind, skip_front,
      ih (fun j hj => hp j (mem_cons_of_mem i hj)) (Nat.le_of_succ_le_succ hfuel) (by omega), ok_map]

theorem length_le_idxBytes {idxs : List Idx} (h : ∀ i ∈ idxs, PidOk i.pid) : idxs.length ≤ (idxs.flatMap idxBytes).length := by
  induction idxs with
  | nil => exact Nat.zero_le _
  | cons i idxs ih =>
    have hpos := idxBytes_pos (h i mem_cons_self)
    have hrest := ih fun j hj => h j (mem_cons_of_mem i hj)
    rw [flatMap_cons, length_append, length_cons]
    omega

theorem readNode_nodeBytes (h : node.Savable) : readNode node.id (nodeBytes node) = .ok (some { node with dirty := false }) := by
  have hpos := setVnumBuf_pos h.heir.1
  have hcount := length_le_idxBytes h.pids
  have hfits := h.fits
  have hlen : (nodeBytes node).length = (setVnumBuf node.heir).length + (node.idxs.flatMap idxBytes).length := length_append
  rw [readNode, if_neg (by omega)]
  conv_lhs =>
    rw [nodeBytes]
  rw [readNum_front h.heir.1 h.heir.2, ok_bind]
  dsimp only
  rw [if_neg (not_lt.2 h.heir.1), ← nodeBytes, readIdxs_flatMap h.pids (by omega) (by omega), ok_map]

/-- The functions that leaves are compressed with, if there are any: `none` where they fail. -/
structure Compressor where
  deflate : Bytes → Option Bytes
  inflate : Bytes → Option Bytes
  inflate_deflate : ∀ page z, deflate page = some z → inflate z = some page

structure Depot where
  recs : ℤ → Option Bytes
  cmode : Option Compressor

namespace Depot

variable {d d' : Depot} {id : ℤ} {page : Bytes}

/-- `dpput` with `DP_DOVER`. -/
def dpput (d : Depot) (id : ℤ) (page : Bytes) : Depot := { d with recs := Function.update d.recs id (some page) }

def dpget (d : Depot) (id : ℤ) : Option Bytes := d.recs id

/-- `dpgetwb`: at most `max` bytes. -/
def dpgetwb (d : Depot) (id : ℤ) (max : ℕ) : Option Bytes := (d.dpget id).map fun page => page.take max

def readPage (d : Depot) (id : ℤ) : Option Bytes :=
  match d.dpgetwb id pageBufSiz with
  | some wbuf => if 0 < wbuf.length ∧ wbuf.length < pageBufSiz then some wbuf else d.dpget id
  | none => d.dpget id

def vlleafsave (d : Depot) (leaf : Leaf) : Option Depot :=
  match d.cmode with
  | none => some (d.dpput leaf.id (leafBytes leaf))
  | some z => (z.deflate (leafBytes leaf)).map (d.dpput leaf.id)

/-- `vlleafload` of a leaf that is not in the cache. -/
def vlleafload (d : Depot) (id : ℤ) : Option (Result Leaf) :=
  (d.readPage id).bind fun page =>
    match d.cmode with
    | none => some (readLeaf id page)
    | some z => (z.inflate page).map (readLeaf id)

def vlnodesave (d : Depot) (node : Node) : Depot := d.dpput node.id (nodeBytes node)

/-- `vlnodeload` of a node that is not in the cache. -/
def vlnodeload (d : Depot) (id : ℤ) : Option (Result (Option Node)) := (d.readPage id).map (readNode id)

theorem readPage_eq (d : Depot) (id : ℤ) : d.readPage id = d.dpget id := by
  unfold readPage dpgetwb
  cases h : d.dpget id with
  | none => rfl
  | some page =>
    rw [map_some]
    dsimp only
    by_cases hfit : 0 < (page.take pageBufSiz).length ∧ (page.take pageBufSiz).length < pageBufSiz
    · rw [if_pos hfit]
      obtain ⟨-, hlt⟩ := hfit
      rw [length_take] at hlt
      rw [take_of_length_le (by omega)]
    · rw [if_neg hfit]

theorem readPage_dpput : (d.dpput id page).readPage id = some page := by
  rw [readPage_eq, dpget, dpput]
  exact update_self id (some page) d.recs

/-- **A leaf that was saved is loaded.** -/
theorem vlleafload_save {leaf : Leaf} (h : leaf.Savable) (hsave : d.vlleafsave leaf = some d') :
    d'.vlleafload leaf.id = some (.ok { leaf with dirty := false }) := by
  unfold vlleafsave at hsave
  unfold vlleafload
  cases hz : d.cmode with
  | none =>
    rw [hz] at hsave
    obtain rfl := Option.some.inj hsave
    have hmode : (d.dpput leaf.id (leafBytes leaf)).cmode = none := hz
    rw [readPage_dpput, bind_some, hmode]
    exact congrArg some (readLeaf_leafBytes h)
  | some z =>
    rw [hz] at hsave
    obtain ⟨page, hpage, rfl⟩ := map_eq_some_iff.1 hsave
    have hmode : (d.dpput leaf.id page).cmode = some z := hz
    rw [readPage_dpput, bind_some, hmode]
    dsimp only
    rw [z.inflate_deflate _ _ hpage, map_some, readLeaf_leafBytes h]

/-- **A node that was saved is loaded.** -/
theorem vlnodeload_save {node : Node} (h : node.Savable) :
    (d.vlnodesave node).vlnodeload node.id = some (.ok (some { node with dirty := false })) := by
  rw [vlnodeload, vlnodesave, readPage_dpput, map_some, readNode_nodeBytes h]

end Depot

/-- **Pages are read back**, and so are the numbers that they rest on, whatever comes behind them. -/
theorem villa_pages {num : ℤ} (h₀ : 0 ≤ num) (hint : num < 2 ^ 31) (rest : Bytes) {leaf : Leaf} (hleaf : leaf.Savable) {node : Node}
    (hnode : node.Savable) (d : Depot) :
    readVnumBuf (setVnumBuf num ++ rest) (setVnumBuf num ++ rest).length = .ok (num, (setVnumBuf num).length) ∧
      (∀ d', d.vlleafsave leaf = some d' → d'.vlleafload leaf.id = some (.ok { leaf with dirty := false })) ∧
      (d.vlnodesave node).vlnodeload node.id = some (.ok (some { node with dirty := false })) :=
  ⟨readVnumBuf_set h₀ hint rest le_rfl, fun _ hsave => Depot.vlleafload_save hleaf hsave, Depot.vlnodeload_save hnode⟩

theorem villa_pages_empty : readVnumBuf (setVnumBuf 300 ++ [1]) (setVnumBuf 300 ++ [1]).length = .ok (300, (setVnumBuf 300).length) ∧
      (∀ d', Depot.vlleafsave ⟨fun _ => none, none⟩ ⟨1, true, [⟨[], [], [[], []]⟩], -1, 2⟩ = some d' →
        d'.vlleafload 1 = some (.ok ⟨1, false, [⟨[], [], [[], []]⟩], -1, 2⟩)) ∧
      (Depot.vlnodesave ⟨fun _ => none, none⟩ ⟨100000000, true, 1, [⟨2, []⟩]⟩).vlnodeload 100000000 =
        some (.ok (some ⟨100000000, false, 1, [⟨2, []⟩]⟩)) :=
  @villa_pages 300 (by decide) (by decide) [1] ⟨1, true, [⟨[], [], [[], []]⟩], -1, 2⟩ ⟨Or.inl rfl, Or.inr (by decide), by decide⟩
    ⟨100000000, true, 1, [⟨2, []⟩]⟩ ⟨by decide, by decide, by decide⟩ ⟨fun _ => none, none⟩

end KVStores.VillaDb
