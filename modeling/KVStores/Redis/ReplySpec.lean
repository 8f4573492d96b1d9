import KVStores.Lib.Draft
import KVStores.Redis.Reply
import Mathlib.Data.List.Nodup

/-!
# What the reply buffers hold

Each operation that adds to the output keeps the objects in order (`Owned`) and adds its reply (`Adds`).
-/

namespace KVStores.Redis.Reply

open Function (update)

def nodePieces (h : Heap) (ln : ListNode) : Draft UInt8 ℕ := (h.obj ln.value).sds.elim [Piece.hole ln.addr] Draft.solid

def pieces (c : Client) : Draft UInt8 ℕ := Draft.solid c.buf ++ c.reply.flatMap (nodePieces c.heap)

def listed (l : List ListNode) (o : ℕ) : ℕ := (l.map ListNode.value).count o

/-- The rest of the server refers to objects, `held o` times to `o`, and each has the value it was made with. -/
structure Owned (held : ℕ → ℕ) (value : ℕ → Robj) (h : Heap) (l : List ListNode) : Prop where
  fresh : ∀ o, h.next ≤ o → (h.obj o).refcount = 0
  counted : ∀ o, (h.obj o).refcount = held o + listed l o
  kept : ∀ o, 0 < held o → (h.obj o).ptr = some (value o)
  nodes : ∀ ln ∈ l, ((h.obj ln.value).ptr = none ∧ (h.obj ln.value).refcount = 1) ∨ ∃ s, (h.obj ln.value).ptr = some (.raw s)

/-- The nodes have addresses of their own. -/
structure Placed (l : List ListNode) (next : ℕ) : Prop where
  nodup : (l.map ListNode.addr).Nodup
  below : ∀ ln ∈ l, ln.addr < next

/-- `d` is put at the end of the output. -/
structure Adds (c c' : Client) (d : Draft UInt8 ℕ) : Prop where
  pieces : pieces c' = pieces c ++ d
  front : (headBytes c).length ≤ (headBytes c').length
  sentlen : c'.sentlen = c.sentlen
  socket : c'.socket = c.socket
  closeAfterReply : c'.closeAfterReply = c.closeAfterReply

variable {held : ℕ → ℕ} {value : ℕ → Robj} {h : Heap} {c : Client} {l : List ListNode} {ln : ListNode} {o : ℕ} {s : List UInt8}

theorem Adds.rfl' (c : Client) : Adds c c [] := ⟨(List.append_nil _).symm, Nat.le_refl _, rfl, rfl, rfl⟩

theorem Adds.trans {c₁ c₂ c₃ : Client} {d e : Draft UInt8 ℕ} (h1 : Adds c₁ c₂ d) (h2 : Adds c₂ c₃ e) : Adds c₁ c₃ (d ++ e) :=
  ⟨by rw [h2.pieces, h1.pieces, List.append_assoc], h1.front.trans h2.front, h2.sentlen.trans h1.sentlen, h2.socket.trans h1.socket,
    h2.closeAfterReply.trans h1.closeAfterReply⟩

@[simp] theorem listed_append (l l' : List ListNode) (o : ℕ) : listed (l ++ l') o = listed l o + listed l' o := by
  rw [listed, listed, listed, List.map_append, List.count_append]

@[simp] theorem listed_cons (ln : ListNode) (l : List ListNode) (o : ℕ) :
    listed (ln :: l) o = listed l o + if ln.value = o then 1 else 0 := by
  rw [listed, listed, List.map_cons, List.count_cons]
  simp

@[simp] theorem listed_nil (o : ℕ) : listed [] o = 0 := rfl

theorem listed_pos (hln : ln ∈ l) : 0 < listed l ln.value := List.count_pos_iff.2 (List.mem_map_of_mem hln)

theorem listed_of_pos (hpos : 0 < listed l o) : ∃ ln ∈ l, ln.value = o := by
  obtain ⟨ln, hln, h⟩ := List.mem_map.1 (List.count_pos_iff.1 hpos)
  exact ⟨ln, hln, h⟩

variable {h' : Heap}

theorem flatMap_nodePieces (hsame : ∀ ln ∈ l, (h'.obj ln.value).ptr = (h.obj ln.value).ptr) :
    l.flatMap (nodePieces h') = l.flatMap (nodePieces h) := by
  apply List.flatMap_congr
  intro ln hln
  rw [nodePieces, nodePieces, Obj.sds, Obj.sds, hsame ln hln]

theorem head_sds (hsame : ∀ ln ∈ l, (h'.obj ln.value).ptr = (h.obj ln.value).ptr) :
    (l.head?.bind fun ln => (h'.obj ln.value).sds) = l.head?.bind fun ln => (h.obj ln.value).sds := by
  cases l with
  | nil => rfl
  | cons ln rest =>
    rw [List.head?_cons, Option.bind_some, Option.bind_some, Obj.sds, Obj.sds, hsame ln List.mem_cons_self]

theorem decrRefCount_ptr (h : Heap) (o o' : ℕ) : ((decrRefCount h o).obj o').ptr = (h.obj o').ptr := by
  simp only [decrRefCount]
  by_cases hoo : o' = o
  · rw [hoo, Function.update_self]
  · rw [Function.update_of_ne hoo]

theorem incrRefCount_ptr (h : Heap) (o o' : ℕ) : ((incrRefCount h o).obj o').ptr = (h.obj o').ptr := by
  simp only [incrRefCount]
  by_cases hoo : o' = o
  · rw [hoo, Function.update_self]
  · rw [Function.update_of_ne hoo]

theorem createObject_obj (h : Heap) (ptr : Option Robj) {o : ℕ} (ho : o ≠ h.next) : (createObject h ptr).obj o = h.obj o :=
  Function.update_of_ne ho _ _

theorem setPtr_obj (h : Heap) (s : List UInt8) {o o' : ℕ} (ho : o' ≠ o) : (setPtr h o s).obj o' = h.obj o' :=
  Function.update_of_ne ho _ _

theorem setPtr_sds (h : Heap) (o : ℕ) (s : List UInt8) : ((setPtr h o s).obj o).sds = some s := by
  simp [setPtr, Obj.sds]

namespace Owned

theorem below (hown : Owned held value h l) (hln : ln ∈ l) : ln.value < h.next := by
  by_contra hge
  have h1 := hown.counted ln.value
  rw [hown.fresh _ (not_lt.1 hge)] at h1
  have h2 := listed_pos hln
  omega

theorem next_free (hown : Owned held value h l) : held h.next = 0 ∧ listed l h.next = 0 := by
  have h1 := hown.counted h.next
  rw [hown.fresh _ (Nat.le_refl _)] at h1
  omega

theorem referred_below (hown : Owned held value h l) (ho : 0 < held o + listed l o) : o < h.next := by
  by_contra hge
  have h1 := hown.counted o
  rw [hown.fresh o (not_lt.1 hge)] at h1
  omega

theorem put (hown : Owned held value h l) {held' : ℕ → ℕ} {value' : ℕ → Robj} {l' : List ListNode} {x : Obj} {next : ℕ}
    (hnext : h.next ≤ next) (ho : o < next) (hcount : x.refcount = held' o + listed l' o)
    (hother : ∀ o', o' ≠ o → held' o' = held o' ∧ value' o' = value o' ∧ listed l' o' = listed l o')
    (hkept : 0 < held' o → x.ptr = some (value' o))
    (hnodes : ∀ ln ∈ l', ln.value ≠ o → ln ∈ l) (hnode : 0 < listed l' o → (x.ptr = none ∧ x.refcount = 1) ∨ ∃ s, x.ptr = some (.raw s)) :
    Owned held' value' ⟨update h.obj o x, next⟩ l' where
  fresh := by
    intro o' ho'
    dsimp only at ho' ⊢
    rw [Function.update_of_ne (by omega)]
    exact hown.fresh o' (hnext.trans ho')
  counted := by
    intro o'
    dsimp only
    by_cases hoo : o' = o
    · rw [hoo, Function.update_self, hcount]
    · obtain ⟨h1, -, h2⟩ := hother o' hoo
      rw [Function.update_of_ne hoo, hown.counted, h1, h2]
  kept := by
    intro o' ho'
    dsimp only
    by_cases hoo : o' = o
    · subst hoo
      rw [Function.update_self, hkept ho']
    · obtain ⟨h1, h2, -⟩ := hother o' hoo
      rw [h1] at ho'
      rw [Function.update_of_ne hoo, hown.kept o' ho', h2]
  nodes := by
    intro ln hln
    dsimp only
    by_cases hoo : ln.value = o
    · have hpos := listed_pos hln
      rw [hoo] at hpos
      rw [hoo, Function.update_self]
      exact hnode hpos
    · rw [Function.update_of_ne hoo]
      exact hown.nodes ln (hnodes ln hln hoo)

theorem create_held (hown : Owned held value h l) (v : Robj) :
    Owned (update held h.next 1) (update value h.next v) (createObject h (some v)) l := by
  obtain ⟨hheld, hlisted⟩ := hown.next_free
  refine hown.put (Nat.le_succ _) (Nat.lt_succ_self _) ?_ ?_ ?_ ?_ ?_
  · rw [Function.update_self, hlisted]
  · intro o' hoo
    exact ⟨Function.update_of_ne hoo _ _, Function.update_of_ne hoo _ _, rfl⟩
  · intro _
    rw [Function.update_self]
  · intro ln hln _
    exact hln
  · intro hpos
    omega

theorem create_listed (hown : Owned held value h l) {ptr : Option Robj} (addr : ℕ) (hptr : ptr = none ∨ ∃ s, ptr = some (.raw s)) :
    Owned held value (createObject h ptr) (l ++ [⟨addr, h.next⟩]) := by
  obtain ⟨hheld, hlisted⟩ := hown.next_free
  refine hown.put (Nat.le_succ _) (Nat.lt_succ_self _) ?_ ?_ ?_ ?_ ?_
  · simp [hheld, hlisted]
  · intro o' hoo
    simp [Ne.symm hoo]
  · intro hpos
    omega
  · intro ln hln hne
    rcases List.mem_append.1 hln with hln | hln
    · exact hln
    · rw [List.mem_singleton.1 hln] at hne
      exact absurd rfl hne
  · intro _
    exact hptr.imp (fun h => ⟨h, rfl⟩) id

theorem incr_held (hown : Owned held value h l) (ho : 0 < held o) : Owned (update held o (held o + 1)) value (incrRefCount h o) l := by
  refine hown.put (Nat.le_refl _) (hown.referred_below (by omega)) ?_ ?_ ?_ ?_ ?_
  · dsimp only
    rw [Function.update_self, hown.counted]
    omega
  · intro o' hoo
    exact ⟨Function.update_of_ne hoo _ _, rfl, rfl⟩
  · intro _
    exact hown.kept o ho
  · intro ln hln _
    exact hln
  · intro hpos
    obtain ⟨ln, hln, rfl⟩ := listed_of_pos hpos
    rcases hown.nodes ln hln with h1 | h1
    · rw [hown.kept _ ho] at h1
      exact absurd h1.1 nofun
    · exact Or.inr h1

theorem incr_listed (hown : Owned held value h l) (addr : ℕ) (ho : 0 < held o) (hptr : (h.obj o).ptr = some (.raw s)) :
    Owned held value (incrRefCount h o) (l ++ [⟨addr, o⟩]) := by
  refine hown.put (Nat.le_refl _) (hown.referred_below (by omega)) ?_ ?_ ?_ ?_ ?_
  · rw [hown.counted]
    simp only [listed_append, listed_cons, listed_nil, if_true]
    omega
  · intro o' hoo
    simp [Ne.symm hoo]
  · intro _
    exact hown.kept o ho
  · intro ln hln hne
    rcases List.mem_append.1 hln with hln | hln
    · exact hln
    · rw [List.mem_singleton.1 hln] at hne
      exact absurd rfl hne
  · intro _
    exact Or.inr ⟨s, hptr⟩

theorem decr_held (hown : Owned held value h l) (ho : 0 < held o) : Owned (update held o (held o - 1)) value (decrRefCount h o) l := by
  refine hown.put (Nat.le_refl _) (hown.referred_below (by omega)) ?_ ?_ ?_ ?_ ?_
  · dsimp only
    rw [Function.update_self, hown.counted]
    omega
  · intro o' hoo
    exact ⟨Function.update_of_ne hoo _ _, rfl, rfl⟩
  · intro _
    exact hown.kept o ho
  · intro ln hln _
    exact hln
  · intro hpos
    obtain ⟨ln, hln, rfl⟩ := listed_of_pos hpos
    rcases hown.nodes ln hln with h1 | h1
    · rw [hown.kept _ ho] at h1
      exact absurd h1.1 nofun
    · exact Or.inr h1

theorem decr_listed {la lb : List ListNode} (hown : Owned held value h (la ++ ln :: lb)) : Owned held value (decrRefCount h ln.value) (la ++ lb) := by
  have hmem : ln ∈ la ++ ln :: lb := List.mem_append_right _ List.mem_cons_self
  have hsub : ∀ {x}, x ∈ la ++ lb → x ∈ la ++ ln :: lb := fun hx =>
    (List.mem_append.1 hx).elim (List.mem_append_left _) fun hx => List.mem_append_right _ (List.mem_cons_of_mem _ hx)
  refine hown.put (Nat.le_refl _) (hown.below hmem) ?_ ?_ ?_ ?_ ?_
  · rw [hown.counted]
    simp only [listed_append, listed_cons, if_true]
    omega
  · intro o' hoo
    simp [Ne.symm hoo]
  · exact hown.kept _
  · intro x hx _
    exact hsub hx
  · intro hpos
    obtain ⟨x, hx, hxo⟩ := listed_of_pos hpos
    rw [← hxo]
    rcases hown.nodes x (hsub hx) with h1 | h1
    · -- the object of two nodes is no header to come
      have h2 := hown.counted x.value
      rw [h1.2, hxo] at h2
      simp only [listed_append, listed_cons, if_true] at h2 hpos
      omega
    · exact Or.inr h1

theorem decr_head (hown : Owned held value h (ln :: l)) : Owned held value (decrRefCount h ln.value) l := by
  rw [← List.nil_append (ln :: l)] at hown
  exact hown.decr_listed

theorem of_held {held' : ℕ → ℕ} {value' : ℕ → Robj} (hown : Owned held' value' h l) (hheld : ∀ o, held' o = held o)
    (hvalue : ∀ o, 0 < held o → value' o = value o) : Owned held value h l where
  fresh := hown.fresh
  counted := by
    intro o
    rw [hown.counted, hheld]
  kept := by
    intro o ho
    rw [← hvalue o ho]
    exact hown.kept o (by rwa [hheld])
  nodes := hown.nodes

theorem set_ptr (hown : Owned held value h l) (hheld : held o = 0) (hpos : 0 < listed l o) (s : List UInt8) :
    Owned held value (setPtr h o s) l := by
  refine hown.put (Nat.le_refl _) (hown.referred_below (by omega)) (hown.counted o) ?_ ?_ ?_ ?_
  · intro o' _
    exact ⟨rfl, rfl, rfl⟩
  · intro ho
    omega
  · intro ln hln _
    exact hln
  · intro _
    exact Or.inr ⟨s, rfl⟩

end Owned

structure Sound (held : ℕ → ℕ) (value : ℕ → Robj) (c : Client) : Prop where
  owned : Owned held value c.heap c.reply
  placed : Placed c.reply c.nextNode

variable {c' : Client} {d : Draft UInt8 ℕ}

theorem headBytes_grow (hbuf : c'.buf = c.buf)
    (hhead : ∀ ln rest t, c.reply = ln :: rest → (c.heap.obj ln.value).sds = some t →
      ∃ ln' rest' t', c'.reply = ln' :: rest' ∧ (c'.heap.obj ln'.value).sds = some (t ++ t')) :
    (headBytes c).length ≤ (headBytes c').length := by
  rw [headBytes, headBytes, hbuf]
  by_cases hnil : c.buf ≠ []
  · rw [if_pos hnil, if_pos hnil]
  rw [if_neg hnil, if_neg hnil]
  cases hreply : c.reply with
  | nil => exact Nat.zero_le _
  | cons ln rest =>
    cases hsds : (c.heap.obj ln.value).sds with
    | none =>
      simp [hsds]
    | some t =>
      obtain ⟨ln', rest', t', h1, h2⟩ := hhead ln rest t hreply hsds
      simp [h1, h2, hsds]

theorem addReplyToBuffer_spec (hsound : Sound held value c) (hclose : c.closeAfterReply = false) (h : addReplyToBuffer c s = some c') :
    Sound held value c' ∧ Adds c c' (Draft.solid s) := by
  rw [addReplyToBuffer, if_neg (by rw [hclose]; exact Bool.false_ne_true)] at h
  by_cases hreply : c.reply ≠ []
  · rw [if_pos hreply] at h
    exact absurd h nofun
  rw [if_neg hreply] at h
  by_cases hlen : s.length > replyChunkBytes - c.buf.length
  · rw [if_pos hlen] at h
    exact absurd h nofun
  rw [if_neg hlen] at h
  obtain rfl := Option.some.inj h
  rw [not_ne_iff] at hreply
  refine ⟨⟨hsound.owned, hsound.placed⟩, ?_, ?_, rfl, rfl, rfl⟩
  · rw [pieces, pieces, hreply, Draft.solid_append]
    simp
  · rw [headBytes, headBytes, hreply]
    by_cases hbuf : c.buf = [] <;> simp [hbuf]

variable {next : ℕ}

theorem Placed.of_addrs {l' : List ListNode} (hplaced : Placed l next) (haddr : l'.map ListNode.addr = l.map ListNode.addr) :
    Placed l' next := by
  refine ⟨by rw [haddr]; exact hplaced.nodup, ?_⟩
  intro ln hln
  have hmem : ln.addr ∈ l.map ListNode.addr := by
    rw [← haddr]
    exact List.mem_map_of_mem hln
  obtain ⟨ln', hln', h⟩ := List.mem_map.1 hmem
  rw [← h]
  exact hplaced.below ln' hln'

theorem Placed.append {next : ℕ} (hplaced : Placed l next) (o : ℕ) : Placed (l ++ [⟨next, o⟩]) (next + 1) := by
  have hnew : next ∉ l.map ListNode.addr := by
    intro hmem
    obtain ⟨ln, hln, h⟩ := List.mem_map.1 hmem
    have h1 := hplaced.below ln hln
    omega
  constructor
  · rw [List.map_append, List.map_singleton, List.nodup_append_comm, List.singleton_append, List.nodup_cons]
    exact ⟨hnew, hplaced.nodup⟩
  · intro ln hln
    rcases List.mem_append.1 hln with hln | hln
    · exact Nat.lt_succ_of_lt (hplaced.below ln hln)
    · rw [List.mem_singleton.1 hln]
      exact Nat.lt_succ_self _

theorem adds_tail {init : List ListNode} {tail tail' : ListNode} {t : List UInt8}
    (hreply : c.reply = init ++ [tail]) (htail : (c.heap.obj tail.value).sds = some t) (htail' : (h'.obj tail'.value).sds = some (t ++ s))
    (hinit : ∀ ln ∈ init, (h'.obj ln.value).ptr = (c.heap.obj ln.value).ptr) :
    Adds c { c with heap := h', reply := init ++ [tail'] } (Draft.solid s) := by
  refine ⟨?_, ?_, rfl, rfl, rfl⟩
  · rw [pieces, pieces, hreply]
    rw [List.flatMap_append, List.flatMap_append, List.flatMap_singleton, List.flatMap_singleton, flatMap_nodePieces hinit, nodePieces,
      htail', nodePieces, htail, Option.elim_some, Option.elim_some, Draft.solid_append]
    simp only [List.append_assoc]
  · refine headBytes_grow rfl ?_
    intro ln rest u hcons hu
    cases init with
    | nil =>
      obtain ⟨rfl, -⟩ := List.cons.inj (hreply.symm.trans hcons)
      obtain rfl := Option.some.inj (htail.symm.trans hu)
      exact ⟨tail', [], s, rfl, htail'⟩
    | cons a init =>
      obtain ⟨rfl, -⟩ := List.cons.inj (hreply.symm.trans hcons)
      refine ⟨a, init ++ [tail'], [], rfl, ?_⟩
      rw [Obj.sds, hinit a List.mem_cons_self, ← Obj.sds, hu, List.append_nil]

theorem appendToTail_nodes (hown : Owned held value c.heap c.reply) (h : appendToTail c s = some c') :
    ∃ init tail tail' t h', c.reply = init ++ [tail] ∧ (c.heap.obj tail.value).sds = some t ∧ t.length + s.length ≤ replyChunkBytes ∧
      c' = { c with heap := h', reply := init ++ [tail'] } ∧ tail'.addr = tail.addr ∧ (h'.obj tail'.value).sds = some (t ++ s) ∧
      (∀ ln ∈ init, (h'.obj ln.value).ptr = (c.heap.obj ln.value).ptr) ∧ Owned held value h' (init ++ [tail']) := by
  obtain ⟨tail, hlast, h⟩ := Option.bind_eq_some_iff.1 h
  obtain ⟨t, ht, h⟩ := Option.bind_eq_some_iff.1 h
  obtain ⟨init, hreply⟩ := List.getLast?_eq_some_iff.1 hlast
  rw [hreply] at hown
  have hmem : tail ∈ init ++ [tail] := List.mem_append_right _ (List.mem_singleton_self _)
  by_cases hlen : t.length + s.length ≤ replyChunkBytes
  swap
  · rw [if_neg hlen] at h
    exact absurd h nofun
  rw [if_pos hlen] at h
  have hcount := hown.counted tail.value
  simp only [listed_append, listed_cons, listed_nil, if_true] at hcount
  by_cases hshared : 1 < (c.heap.obj tail.value).refcount
  · -- the object is shared: a copy takes its place, and grows
    rw [dupLastObjectIfNeeded, if_pos hshared] at h
    obtain rfl := Option.some.inj h
    obtain ⟨hheld, hlisted⟩ := hown.next_free
    have hptr : ∃ b, (c.heap.obj tail.value).ptr = some (.raw b) :=
      (hown.nodes tail hmem).resolve_left fun h1 => by
        rw [h1.2] at hshared
        exact absurd hshared (Nat.lt_irrefl 1)
    have hcopy := hown.create_listed tail.addr (Or.inr hptr)
    rw [List.append_assoc, List.cons_append, List.nil_append] at hcopy
    have hdrop := hcopy.decr_listed
    have hset := hdrop.set_ptr hheld (by simp) (t ++ s)
    have hdropLast : c.reply.dropLast = init := by
      rw [hreply, List.dropLast_concat]
    rw [hdropLast]
    refine ⟨init, tail, _, t, _, hreply, ht, hlen, rfl, rfl, setPtr_sds _ _ _, ?_, hset⟩
    intro ln hln
    have hne : ln.value ≠ c.heap.next := (hown.below (List.mem_append_left _ hln)).ne
    rw [setPtr_obj _ _ hne, decrRefCount_ptr, createObject_obj _ _ hne]
  · -- nobody else has the object
    rw [dupLastObjectIfNeeded, if_neg hshared] at h
    dsimp only at h
    obtain rfl := Option.some.inj h
    have hpos : 0 < listed (init ++ [tail]) tail.value := listed_pos hmem
    refine ⟨init, tail, tail, t, setPtr c.heap tail.value (t ++ s), hreply, ht, hlen, ?_, rfl, setPtr_sds _ _ _, ?_,
      hown.set_ptr (by omega) hpos _⟩
    · rw [← hreply]
    · intro ln hln
      have hne : ln.value ≠ tail.value := by
        intro heq
        have h2 := listed_pos hln
        rw [heq] at h2
        omega
      rw [setPtr_obj _ _ hne]

theorem appendToTail_spec (hsound : Sound held value c) (h : appendToTail c s = some c') : Sound held value c' ∧ Adds c c' (Draft.solid s) := by
  obtain ⟨init, tail, tail', t, h', hreply, ht, -, rfl, haddr, ht', hinit, hown⟩ := appendToTail_nodes hsound.owned h
  refine ⟨⟨hown, hsound.placed.of_addrs ?_⟩, adds_tail hreply ht ht' hinit⟩
  rw [hreply, List.map_append, List.map_append, List.map_singleton, List.map_singleton, haddr]

theorem adds_node (hsame : ∀ ln ∈ c.reply, (h'.obj ln.value).ptr = (c.heap.obj ln.value).ptr) (o : ℕ) :
    Adds c (listAddNodeTail { c with heap := h' } o) (nodePieces h' ⟨c.nextNode, o⟩) := by
  refine ⟨?_, ?_, rfl, rfl, rfl⟩
  · rw [pieces, pieces, listAddNodeTail]
    rw [List.flatMap_append, flatMap_nodePieces hsame, List.flatMap_singleton, List.append_assoc]
  · refine headBytes_grow rfl ?_
    intro ln rest t hreply ht
    refine ⟨ln, rest ++ [⟨c.nextNode, o⟩], [], ?_, ?_⟩
    · rw [listAddNodeTail]
      rw [hreply, List.cons_append]
    · rw [List.append_nil, ← ht, Obj.sds, Obj.sds]
      dsimp only [listAddNodeTail]
      rw [hsame ln (by rw [hreply]; exact List.mem_cons_self)]

theorem listAddNewObject_spec (hsound : Sound held value c) {ptr : Option Robj} (hptr : ptr = none ∨ ∃ s, ptr = some (.raw s)) :
    Sound held value (listAddNewObject c ptr) ∧
      Adds c (listAddNewObject c ptr) ((Obj.mk 1 ptr).sds.elim [Piece.hole c.nextNode] Draft.solid) := by
  refine ⟨⟨hsound.owned.create_listed c.nextNode hptr, hsound.placed.append _⟩, ?_⟩
  have hsame : ∀ ln ∈ c.reply, ((createObject c.heap ptr).obj ln.value).ptr = (c.heap.obj ln.value).ptr := by
    intro ln hln
    rw [createObject_obj _ _ (hsound.owned.below hln).ne]
  have hadds := adds_node hsame c.heap.next
  rw [nodePieces] at hadds
  simp only [createObject, Function.update_self] at hadds
  exact hadds

theorem addReplyStringToList_spec (hsound : Sound held value c) (hclose : c.closeAfterReply = false) (s : List UInt8) :
    Sound held value (addReplyStringToList c s) ∧ Adds c (addReplyStringToList c s) (Draft.solid s) := by
  rw [addReplyStringToList, if_neg (by rw [hclose]; exact Bool.false_ne_true)]
  cases happend : appendToTail c s with
  | none =>
    exact listAddNewObject_spec hsound (Or.inr ⟨s, rfl⟩)
  | some c' =>
    exact appendToTail_spec hsound happend

theorem addReplyObjectToList_spec (hsound : Sound held value c) (hclose : c.closeAfterReply = false) (ho : 0 < held o)
    (hptr : (c.heap.obj o).ptr = some (.raw s)) :
    Sound held value (addReplyObjectToList c o s) ∧ Adds c (addReplyObjectToList c o s) (Draft.solid s) := by
  rw [addReplyObjectToList, if_neg (by rw [hclose]; exact Bool.false_ne_true)]
  cases happend : appendToTail c s with
  | some c' =>
    exact appendToTail_spec hsound happend
  | none =>
    refine ⟨⟨hsound.owned.incr_listed c.nextNode ho hptr, hsound.placed.append _⟩, ?_⟩
    have hadds := adds_node (fun ln (_ : ln ∈ c.reply) => incrRefCount_ptr c.heap o ln.value) o
    rwa [nodePieces, Obj.sds, incrRefCount_ptr, hptr] at hadds

theorem addReplyToBuffer_or (hsound : Sound held value c) (hclose : c.closeAfterReply = false)
    (hlist : Sound held value c' ∧ Adds c c' (Draft.solid s)) :
    Sound held value ((addReplyToBuffer c s).getD c') ∧ Adds c ((addReplyToBuffer c s).getD c') (Draft.solid s) := by
  cases hbuf : addReplyToBuffer c s with
  | none => exact hlist
  | some c₁ => exact addReplyToBuffer_spec hsound hclose hbuf

theorem addReplyString_spec (hsound : Sound held value c) (hclose : c.closeAfterReply = false) (installed : Bool) (s : List UInt8) :
    Sound held value (addReplyString installed c s) ∧
      Adds c (addReplyString installed c s) (if prepareClientToWrite installed c = true then Draft.solid s else []) := by
  rw [addReplyString]
  by_cases hprepare : prepareClientToWrite installed c = true
  · rw [if_pos hprepare, if_pos hprepare]
    exact addReplyToBuffer_or hsound hclose (addReplyStringToList_spec hsound hclose s)
  · rw [if_neg hprepare, if_neg hprepare]
    exact ⟨hsound, Adds.rfl' c⟩

theorem addReplyDecoded_spec (hsound : Sound held value c) (hclose : c.closeAfterReply = false) (s : List UInt8) :
    Sound held value (addReplyDecoded c s) ∧ Adds c (addReplyDecoded c s) (Draft.solid s) := by
  -- the object with the digits is held while the reply is added
  have hown := hsound.owned.create_held (.raw s)
  have hnext : 0 < update held c.heap.next 1 c.heap.next := by
    rw [Function.update_self]
    exact Nat.one_pos
  set c₁ : Client := { c with heap := createObject c.heap (some (.raw s)) } with hc₁
  have hsound₁ : Sound (update held c.heap.next 1) (update value c.heap.next (.raw s)) c₁ := ⟨hown, hsound.placed⟩
  have hptr : (c₁.heap.obj c.heap.next).ptr = some (.raw s) := by
    rw [hc₁]
    simp only [createObject, Function.update_self]
  obtain ⟨hsound₂, hadds₂⟩ := addReplyToBuffer_or hsound₁ hclose (addReplyObjectToList_spec hsound₁ hclose hnext hptr)
  set c₂ := (addReplyToBuffer c₁ s).getD (addReplyObjectToList c₁ c.heap.next s)
  have hadds₁ : Adds c c₁ [] := by
    have hsame : ∀ ln ∈ c.reply, (c₁.heap.obj ln.value).ptr = (c.heap.obj ln.value).ptr := by
      intro ln hln
      rw [hc₁, createObject_obj _ _ (hsound.owned.below hln).ne]
    refine ⟨?_, ?_, rfl, rfl, rfl⟩
    · rw [pieces, pieces, List.append_nil, flatMap_nodePieces hsame]
    · rw [headBytes, headBytes, head_sds hsame]
  have hadds₃ : Adds c₂ { c₂ with heap := decrRefCount c₂.heap c.heap.next } [] := by
    refine ⟨?_, ?_, rfl, rfl, rfl⟩
    · rw [pieces, pieces, List.append_nil, flatMap_nodePieces fun ln _ => decrRefCount_ptr _ _ ln.value]
    · rw [headBytes, headBytes, head_sds fun ln _ => decrRefCount_ptr _ _ ln.value]
  refine ⟨⟨?_, hsound₂.placed⟩, ?_⟩
  · have hfree : held c.heap.next = 0 := hsound.owned.next_free.1
    refine (hsound₂.owned.decr_held hnext).of_held ?_ ?_
    · intro o
      by_cases ho : o = c.heap.next
      · rw [ho, Function.update_self, Function.update_self, hfree]
      · rw [Function.update_of_ne ho, Function.update_of_ne ho]
    · intro o ho
      have hne : o ≠ c.heap.next := by
        rintro rfl
        omega
      exact Function.update_of_ne hne _ _
  · have hadds := (hadds₁.trans hadds₂).trans hadds₃
    rwa [List.nil_append, List.append_nil] at hadds

theorem addReplyInt_spec (hsound : Sound held value c) (hclose : c.closeAfterReply = false) (v : Long) :
    Sound held value (addReplyInt c v) ∧ Adds c (addReplyInt c v) (Draft.solid (ll2string v.1)) := by
  rw [addReplyInt]
  by_cases hroom : c.reply = [] ∧ 32 ≤ replyChunkBytes - c.buf.length
  · rw [if_pos hroom]
    exact addReplyToBuffer_or hsound hclose (addReplyDecoded_spec hsound hclose _)
  · rw [if_neg hroom]
    exact addReplyDecoded_spec hsound hclose _

theorem addReply_spec (hsound : Sound held value c) (hclose : c.closeAfterReply = false) (installed : Bool) (ho : 0 < held o) :
    Sound held value (addReply installed c o) ∧
      Adds c (addReply installed c o) (if prepareClientToWrite installed c = true then Draft.solid (getDecodedObject (value o)) else []) := by
  have hptr := hsound.owned.kept o ho
  rw [addReply]
  by_cases hprepare : prepareClientToWrite installed c = true
  · rw [if_pos hprepare, if_pos hprepare, hptr]
    cases hvalue : value o with
    | raw s =>
      rw [hvalue] at hptr
      exact addReplyToBuffer_or hsound hclose (addReplyObjectToList_spec hsound hclose ho hptr)
    | int v =>
      exact addReplyInt_spec hsound hclose v
  · rw [if_neg hprepare, if_neg hprepare]
    exact ⟨hsound, Adds.rfl' c⟩

theorem addDeferredMultiBulkLength_spec (hsound : Sound held value c) (installed : Bool) :
    Sound held value (addDeferredMultiBulkLength installed c).1 ∧
      Adds c (addDeferredMultiBulkLength installed c).1 (if prepareClientToWrite installed c = true then [Piece.hole c.nextNode] else []) := by
  rw [addDeferredMultiBulkLength]
  by_cases hprepare : prepareClientToWrite installed c = true
  · rw [if_pos hprepare, if_pos hprepare]
    exact listAddNewObject_spec hsound (Or.inl rfl)
  · rw [if_neg hprepare, if_neg hprepare]
    exact ⟨hsound, Adds.rfl' c⟩

variable {a : ℕ}

theorem mem_holes : a ∈ Draft.holes (l.flatMap (nodePieces h)) ↔ ∃ ln ∈ l, ln.addr = a ∧ (h.obj ln.value).sds = none := by
  induction l with
  | nil => simp [Draft.holes]
  | cons ln l ih =>
    rw [List.flatMap_cons, Draft.holes_append, List.mem_append, ih, nodePieces]
    cases hsds : (h.obj ln.value).sds with
    | none => simp [Draft.holes, Draft.name, hsds, eq_comm]
    | some t => simp [hsds]

structure Fills (c c' : Client) (a : ℕ) (s : List UInt8) : Prop where
  pieces : pieces c' = Draft.fill a s (pieces c)
  front : (headBytes c).length ≤ (headBytes c').length
  sentlen : c'.sentlen = c.sentlen
  socket : c'.socket = c.socket
  closeAfterReply : c'.closeAfterReply = c.closeAfterReply

theorem node_cut (hplaced : Placed c.reply c.nextNode) (hln : ln ∈ c.reply) (ha : ln.addr = a) :
    ∃ rest, c.reply.dropWhile (fun ln => ln.addr ≠ a) = ln :: rest ∧ c.reply = (c.reply.takeWhile fun ln => ln.addr ≠ a) ++ ln :: rest ∧
      (∀ x ∈ c.reply.takeWhile fun ln => ln.addr ≠ a, x.addr ≠ a) ∧ ∀ x ∈ rest, x.addr ≠ a := by
  have hbefore : ∀ x ∈ c.reply.takeWhile fun ln => ln.addr ≠ a, x.addr ≠ a := fun x hx => by
    simpa using List.mem_takeWhile_imp hx
  have hcut := List.takeWhile_append_dropWhile (p := fun ln : ListNode => ln.addr ≠ a) (l := c.reply)
  cases hdrop : c.reply.dropWhile (fun ln => ln.addr ≠ a) with
  | nil =>
    rw [hdrop, List.append_nil] at hcut
    rw [← hcut] at hln
    exact absurd ha (hbefore ln hln)
  | cons x rest =>
    have hx : x.addr = a := by
      have h1 := List.head?_dropWhile_not (fun ln : ListNode => decide (ln.addr ≠ a)) c.reply
      rw [hdrop] at h1
      simpa using h1
    rw [hdrop] at hcut
    have hnodup := hplaced.nodup
    rw [← hcut, List.map_append, List.map_cons] at hnodup
    have hrest : ∀ y ∈ rest, y.addr ≠ a := by
      intro y hy hya
      have h1 := (List.nodup_cons.1 (List.nodup_append.1 hnodup).2.1).1
      rw [hx, ← hya] at h1
      exact h1 (List.mem_map_of_mem hy)
    have hxln : x = ln := by
      rw [← hcut] at hln
      rcases List.mem_append.1 hln with hln | hln
      · exact absurd ha (hbefore ln hln)
      · rcases List.mem_cons.1 hln with hln | hln
        · exact hln.symm
        · exact absurd ha (hrest ln hln)
    subst hxln
    exact ⟨rest, rfl, hcut.symm, hbefore, hrest⟩

theorem header_alone {front rest : List ListNode} (hown : Owned held value h (front ++ ln :: rest)) (hnull : (h.obj ln.value).sds = none) :
    held ln.value = 0 ∧ ∀ x, x ∈ front ∨ x ∈ rest → x.value ≠ ln.value := by
  have hptr := (hown.nodes ln (List.mem_append_right _ List.mem_cons_self)).resolve_right fun ⟨t, ht⟩ => by
    rw [Obj.sds, ht] at hnull
    exact absurd hnull nofun
  have hheld : held ln.value = 0 := by
    by_contra hpos
    rw [hown.kept _ (Nat.pos_of_ne_zero hpos)] at hptr
    exact absurd hptr.1 nofun
  refine ⟨hheld, ?_⟩
  intro x hx heq
  have h1 := hown.counted ln.value
  simp only [listed_append, listed_cons, if_true] at h1
  rcases hx with hx | hx
  · have h2 := listed_pos hx
    rw [heq] at h2
    omega
  · have h2 := listed_pos hx
    rw [heq] at h2
    omega

theorem setDeferredMultiBulkLength_spec (hsound : Sound held value c) (ha : a ∈ Draft.holes (pieces c)) (length : Long) :
    Sound held value (setDeferredMultiBulkLength c (some a) length) ∧
      Fills c (setDeferredMultiBulkLength c (some a) length) a (multiBulkHeader length) := by
  obtain ⟨hown, hplaced⟩ := hsound
  rw [pieces, Draft.holes_append, Draft.holes_solid, List.nil_append, mem_holes] at ha
  obtain ⟨ln, hln, haddr, hnull⟩ := ha
  obtain ⟨rest, hdrop, hcut, hfront, hrest⟩ := node_cut hplaced hln haddr
  rw [setDeferredMultiBulkLength, hdrop]
  dsimp only
  set front := c.reply.takeWhile fun ln => ln.addr ≠ a
  set s := multiBulkHeader length
  have hown' := hown
  rw [hcut] at hown'
  obtain ⟨hheld, honly⟩ := header_alone hown' hnull
  have hsame : ∀ (t : List UInt8) (x : ListNode), x ∈ front ∨ x ∈ rest → ((setPtr c.heap ln.value t).obj x.value).ptr = (c.heap.obj x.value).ptr := by
    intro t x hx
    rw [setPtr_obj _ _ (honly x hx)]
  have hself : ∀ t : List UInt8, nodePieces (setPtr c.heap ln.value t) ln = Draft.solid t := by
    intro t
    rw [nodePieces, setPtr_sds]
    rfl
  have hset := fun t => hown'.set_ptr hheld (by rw [listed_append, listed_cons, if_pos rfl]; omega) t
  -- the header's place is the only one by its name
  have hfill : Draft.fill a s (pieces c) =
      Draft.solid c.buf ++ (front.flatMap (nodePieces c.heap) ++ (Draft.solid s ++ rest.flatMap (nodePieces c.heap))) := by
    have hhole : nodePieces c.heap ln = [Piece.hole a] := by
      rw [nodePieces, hnull, haddr]
      rfl
    have h1 : a ∉ Draft.holes (front.flatMap (nodePieces c.heap)) := fun h1 => by
      obtain ⟨x, hx, hxa, -⟩ := mem_holes.1 h1
      exact hfront x hx hxa
    have h2 : a ∉ Draft.holes (rest.flatMap (nodePieces c.heap)) := fun h2 => by
      obtain ⟨x, hx, hxa, -⟩ := mem_holes.1 h2
      exact hrest x hx hxa
    have h3 : a ∉ Draft.holes (Draft.solid c.buf : Draft UInt8 ℕ) := by
      rw [Draft.holes_solid]
      exact List.not_mem_nil
    rw [pieces, hcut, List.flatMap_append, List.flatMap_cons, Draft.fill_append, Draft.fill_append, Draft.fill_append, hhole,
      Draft.fill_hole, Draft.fill_absent h1, Draft.fill_absent h2, Draft.fill_absent h3]
  have hhead : ∀ (l : List ListNode) (h' : Heap), (∀ x ∈ front, (h'.obj x.value).ptr = (c.heap.obj x.value).ptr) →
      (headBytes c).length ≤ (headBytes { c with heap := h', reply := front ++ ln :: l }).length := by
    intro l h' hkeep
    refine headBytes_grow rfl ?_
    intro x xs u hx hu
    cases hfr : front with
    | nil =>
      rw [hfr, List.nil_append] at hcut
      obtain ⟨rfl, -⟩ := List.cons.inj (hcut.symm.trans hx)
      rw [hnull] at hu
      cases hu
    | cons y ys =>
      rw [hfr, List.cons_append] at hcut
      obtain ⟨rfl, -⟩ := List.cons.inj (hcut.symm.trans hx)
      refine ⟨y, ys ++ ln :: l, [], rfl, ?_⟩
      rw [Obj.sds, hkeep y (by rw [hfr]; exact List.mem_cons_self), ← Obj.sds, hu, List.append_nil]
  have hplain : Sound held value { c with heap := setPtr c.heap ln.value s } ∧ Fills c { c with heap := setPtr c.heap ln.value s } a s := by
    refine ⟨⟨?_, hplaced⟩, ?_, ?_, rfl, rfl, rfl⟩
    · rw [hcut]
      exact hset s
    · rw [hfill, pieces]
      rw [hcut, List.flatMap_append, List.flatMap_cons, hself, flatMap_nodePieces fun x hx => hsame s x (Or.inl hx),
        flatMap_nodePieces fun x hx => hsame s x (Or.inr hx)]
    · have h1 := hhead rest (setPtr c.heap ln.value s) fun x hx => hsame s x (Or.inl hx)
      rwa [← hcut] at h1
  cases hnext : rest with
  | nil =>
    exact hplain
  | cons next rest' =>
    rw [glueToNext]
    cases hsds : (c.heap.obj next.value).sds with
    | none => exact hplain
    | some t =>
      dsimp only
      have hdecr := decrRefCount_ptr (setPtr c.heap ln.value (s ++ t)) next.value
      have hself' : nodePieces (decrRefCount (setPtr c.heap ln.value (s ++ t)) next.value) ln = Draft.solid (s ++ t) := by
        rw [← hself, nodePieces, nodePieces, Obj.sds, Obj.sds, hdecr]
      have hglued := hset (s ++ t)
      rw [hnext, show front ++ ln :: next :: rest' = (front ++ [ln]) ++ next :: rest' by simp] at hglued
      have hglued' := hglued.decr_listed
      rw [List.append_assoc, List.singleton_append] at hglued'
      refine ⟨⟨hglued', ?_⟩, ?_, ?_, rfl, rfl, rfl⟩
      · have hsub : (front ++ ln :: rest').Sublist c.reply := by
          rw [hcut, hnext]
          exact List.Sublist.append_left (List.Sublist.cons_cons _ (List.sublist_cons_self _ _)) _
        exact ⟨hplaced.nodup.sublist (hsub.map _), fun x hx => hplaced.below x (hsub.subset hx)⟩
      · rw [hfill, pieces]
        rw [hnext, List.flatMap_append, List.flatMap_cons, List.flatMap_cons, hself',
          flatMap_nodePieces fun x hx => (hdecr x.value).trans (hsame (s ++ t) x (Or.inl hx)),
          flatMap_nodePieces fun x hx => (hdecr x.value).trans (hsame (s ++ t) x (Or.inr (by rw [hnext]; exact List.mem_cons_of_mem _ hx)))]
        rw [Draft.solid_append, nodePieces, hsds, Option.elim_some]
        simp only [List.append_assoc]
      · exact hhead rest' _ fun x hx => (hdecr x.value).trans (hsame (s ++ t) x (Or.inl hx))

end KVStores.Redis.Reply
