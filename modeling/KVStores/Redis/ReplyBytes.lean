import KVStores.Redis.ReplyRun
import Mathlib.Tactic.Ring

/-!
# The size of the list of replies

networking.c counts in `reply_bytes` what the strings of the list take, and closes a client for which it is too much. `size` stands for
`zmalloc_size_sds`.
-/

namespace KVStores.Redis.Reply

open List Option Function

/-- `reply_bytes`, and how many empty strings have been deleted. -/
structure Tally where
  bytes : ℤ
  emptied : ℕ
deriving DecidableEq

variable (size : List UInt8 → ℕ)

/-- `_addReplyObjectToList`, `_addReplySdsToList` and `_addReplyStringToList`. -/
def toListBytes (c : Client) (s : List UInt8) (bytes : ℤ) : ℤ :=
  if c.closeAfterReply = true then bytes
  else
    match c.reply.getLast? with
    | none => bytes + size s
    | some tail =>
      match (c.heap.obj tail.value).sds with
      | none => bytes + size s
      | some t => if t.length + s.length ≤ replyChunkBytes then bytes - size t + size (t ++ s) else bytes + size s

/-- The list is used when there is no room in the static buffer. -/
def replyBytes (c : Client) (s : List UInt8) (bytes : ℤ) : ℤ :=
  if (addReplyToBuffer c s).isSome = true then bytes else toListBytes size c s bytes

/-- `addReply`; a number is written out in an object of its own. -/
def addReplyBytes (installed : Bool) (c : Client) (o : ℕ) (bytes : ℤ) : ℤ :=
  if prepareClientToWrite installed c = true then
    match (c.heap.obj o).ptr with
    | none => bytes
    | some (.raw s) => replyBytes size c s bytes
    | some (.int v) =>
      if (c.reply = [] ∧ 32 ≤ replyChunkBytes - c.buf.length) ∧ (addReplyToBuffer c (ll2string v.1)).isSome = true then bytes
      else replyBytes size { c with heap := createObject c.heap (some (.raw (ll2string v.1))) } (ll2string v.1) bytes
  else bytes

/-- `addReplySds` and `addReplyString`. -/
def addReplyStringBytes (installed : Bool) (c : Client) (s : List UInt8) (bytes : ℤ) : ℤ :=
  if prepareClientToWrite installed c = true then replyBytes size c s bytes else bytes

/-- The header is counted, and counted again together with the next string. -/
def glueBytes (c : Client) (rest : List ListNode) (s : List UInt8) (bytes : ℤ) : ℤ :=
  match rest with
  | [] => bytes + size s
  | next :: _ =>
    match (c.heap.obj next.value).sds with
    | none => bytes + size s
    | some t => bytes + size s - size s - size t + size (s ++ t)

/-- `setDeferredMultiBulkLength`. -/
def setDeferredBytes (c : Client) (node : Option ℕ) (length : Long) (bytes : ℤ) : ℤ :=
  match node with
  | none => bytes
  | some addr =>
    match c.reply.dropWhile fun ln => ln.addr ≠ addr with
    | [] => bytes
    | _ :: rest => glueBytes size c rest (multiBulkHeader length) bytes

/-- An object is deleted when all of it has been written, and is not counted any more. -/
def advanceBytes (c : Client) (n : ℕ) (bytes : ℤ) : ℤ :=
  if c.sentlen + n = (headBytes c).length ∧ c.buf = [] ∧ c.reply ≠ [] then bytes - size (headBytes c) else bytes

def emptyInFront (c : Client) : ℕ := c.reply.length - (skipEmpty c).reply.length

/-- The loop of `sendReplyToClient`, round by round as in `sendLoop`. -/
@[grind =] def sendLoopTally : List (WriteResult × Bool) → ℕ → Client → Tally → Tally
  | ws, totwritten, c, t =>
    let t := { t with emptied := t.emptied + emptyInFront c }
    let c := skipEmpty c
    if c.buf = [] ∧ c.reply = [] then t
    else
      match ws with
      | [] => t
      | (.eagain, _) :: _ => t
      | (.error, _) :: _ => t
      | (.accepted n, limited) :: ws =>
        let nwritten := min n ((headBytes c).length - c.sentlen)
        if nwritten = 0 then t
        else
          let t := { t with bytes := advanceBytes size c nwritten t.bytes }
          if totwritten + nwritten > maxWritePerEvent ∧ limited = true then t
          else sendLoopTally ws (totwritten + nwritten) (advance c nwritten) t

@[grind =] def Event.tally (c : Client) (t : Tally) : Event → Tally
  | .addReply installed o => { t with bytes := addReplyBytes size installed c o t.bytes }
  | .addReplySds installed s => { t with bytes := addReplyStringBytes size installed c s t.bytes }
  | .addReplyString installed s => { t with bytes := addReplyStringBytes size installed c s t.bytes }
  | .setDeferredMultiBulkLength node length => { t with bytes := setDeferredBytes size c node length t.bytes }
  | .sendReplyToClient ws => sendLoopTally size ws 0 c t
  | .addDeferredMultiBulkLength _ | .createObject _ | .incrRefCount _ | .decrRefCount _ => t

@[grind =] def Session.runTally (s : Session) (t : Tally) : List Event → Option (Session × Tally)
  | [] => some (s, t)
  | e :: es => (s.step e).bind fun s' => s'.runTally (e.tally size s.client t) es

/-- The strings of the list; none for a header to come. -/
def shown (c : Client) : List (Option (List UInt8)) := c.reply.map fun ln => (c.heap.obj ln.value).sds

def listSize (l : List (Option (List UInt8))) : ℤ := (l.map fun s => s.elim 0 fun s => (size s : ℤ)).sum

variable {size} {held : ℕ → ℕ} {value : ℕ → Robj} {c c' : Client} {s : List UInt8} {bytes : ℤ}

theorem listSize_append (l l' : List (Option (List UInt8))) : listSize size (l ++ l') = listSize size l + listSize size l' := by
  rw [listSize, listSize, listSize, map_append, sum_append]

theorem listSize_some (s : List UInt8) (l : List (Option (List UInt8))) : listSize size (some s :: l) = size s + listSize size l := by
  rfl

theorem listSize_none (l : List (Option (List UInt8))) : listSize size (none :: l) = listSize size l := by
  exact zero_add _

theorem map_sds {l : List ListNode} {h h' : Heap} (hsame : ∀ ln ∈ l, (h'.obj ln.value).ptr = (h.obj ln.value).ptr) :
    (l.map fun ln => (h'.obj ln.value).sds) = l.map fun ln => (h.obj ln.value).sds := by
  apply map_congr_left
  intro ln hln
  rw [Obj.sds, Obj.sds, hsame ln hln]

def Counts (size : List UInt8 → ℕ) (c c' : Client) (bytes bytes' : ℤ) : Prop := bytes' - listSize size (shown c') = bytes - listSize size (shown c)

theorem Counts.same (hshown : shown c' = shown c) : Counts size c c' bytes bytes := by rw [Counts, hshown]

theorem counts_append (hown : Owned held value c.heap c.reply) (hclose : c.closeAfterReply = false) (h : appendToTail c s = some c') (bytes : ℤ) :
    Counts size c c' bytes (toListBytes size c s bytes) := by
  obtain ⟨init, tail, tail', t, h', hreply, ht, hlen, rfl, -, ht', hinit, -⟩ := appendToTail_nodes hown h
  have hbytes : toListBytes size c s bytes = bytes - size t + size (t ++ s) := by
    rw [toListBytes, if_neg (by rw [hclose]; exact Bool.false_ne_true), hreply, List.getLast?_concat]
    dsimp only
    rw [ht]
    dsimp only
    rw [if_pos hlen]
  have hold : shown c = (init.map fun ln => (c.heap.obj ln.value).sds) ++ [some t] := by
    rw [shown, hreply, map_append, map_singleton, ht]
  have hnew : shown { c with heap := h', reply := init ++ [tail'] } = (init.map fun ln => (c.heap.obj ln.value).sds) ++ [some (t ++ s)] := by
    rw [shown]
    rw [map_append, map_singleton, ht', map_sds hinit]
  rw [Counts, hbytes, hold, hnew, listSize_append, listSize_append, listSize_some, listSize_some]
  omega

/-- The last string does not grow: there is none, or it is too long. -/
theorem toListBytes_new (hclose : c.closeAfterReply = false) (h : appendToTail c s = none) (bytes : ℤ) : toListBytes size c s bytes = bytes + size s := by
  rw [toListBytes, if_neg (by rw [hclose]; exact Bool.false_ne_true)]
  unfold appendToTail at h
  cases hlast : c.reply.getLast? with
  | none => rfl
  | some tail =>
    rw [hlast, bind_some] at h
    dsimp only
    cases hsds : (c.heap.obj tail.value).sds with
    | none => rfl
    | some t =>
      rw [hsds, bind_some] at h
      dsimp only
      by_cases hlen : t.length + s.length ≤ replyChunkBytes
      · rw [if_pos hlen] at h
        cases h
      · rw [if_neg hlen]

theorem counts_string (hown : Owned held value c.heap c.reply) (hclose : c.closeAfterReply = false) (s : List UInt8) (bytes : ℤ) :
    Counts size c (addReplyStringToList c s) bytes (toListBytes size c s bytes) := by
  rw [addReplyStringToList, if_neg (by rw [hclose]; exact Bool.false_ne_true)]
  cases happend : appendToTail c s with
  | some c' => exact counts_append hown hclose happend bytes
  | none =>
    have hsame : ∀ ln ∈ c.reply, ((createObject c.heap (some (.raw s))).obj ln.value).ptr = (c.heap.obj ln.value).ptr := by
      intro ln hln
      rw [createObject_obj _ _ (hown.below hln).ne]
    have hnew : shown (listAddNewObject c (some (.raw s))) = shown c ++ [some s] := by
      rw [shown, listAddNewObject, listAddNodeTail]
      rw [map_append, map_singleton, map_sds hsame, shown]
      simp [createObject, Obj.sds]
    rw [getD_none, Counts, toListBytes_new hclose happend, hnew, listSize_append, listSize_some]
    simp only [listSize, map_nil, sum_nil]
    omega

theorem counts_object {o : ℕ} (hown : Owned held value c.heap c.reply) (hclose : c.closeAfterReply = false) (hptr : (c.heap.obj o).ptr = some (.raw s))
    (bytes : ℤ) : Counts size c (addReplyObjectToList c o s) bytes (toListBytes size c s bytes) := by
  rw [addReplyObjectToList, if_neg (by rw [hclose]; exact Bool.false_ne_true)]
  cases happend : appendToTail c s with
  | some c' => exact counts_append hown hclose happend bytes
  | none =>
    have hnew : shown (listAddNodeTail { c with heap := incrRefCount c.heap o } o) = shown c ++ [some s] := by
      rw [shown, listAddNodeTail]
      rw [map_append, map_singleton, map_sds fun ln _ => incrRefCount_ptr c.heap o ln.value, Obj.sds, incrRefCount_ptr, hptr]
      rfl
    rw [getD_none, Counts, toListBytes_new hclose happend, hnew, listSize_append, listSize_some]
    simp only [listSize, map_nil, sum_nil]
    omega

theorem addReplyToBuffer_shown (h : addReplyToBuffer c s = some c') : shown c' = shown c := by
  unfold addReplyToBuffer at h
  split at h
  · rw [Option.some.inj h]
  split at h
  · cases h
  split at h
  · cases h
  · rw [← Option.some.inj h]
    rfl

theorem counts_reply (hlist : Counts size c c' bytes (toListBytes size c s bytes)) :
    Counts size c ((addReplyToBuffer c s).getD c') bytes (replyBytes size c s bytes) := by
  rw [replyBytes]
  cases hbuf : addReplyToBuffer c s with
  | none =>
    exact hlist
  | some c₁ =>
    exact Counts.same (addReplyToBuffer_shown hbuf)

theorem counts_addReplyString (hown : Owned held value c.heap c.reply) (hclose : c.closeAfterReply = false) (installed : Bool) (s : List UInt8) (bytes : ℤ) :
    Counts size c (addReplyString installed c s) bytes (addReplyStringBytes size installed c s bytes) := by
  rw [addReplyString, addReplyStringBytes]
  by_cases hprepare : prepareClientToWrite installed c = true
  · rw [if_pos hprepare, if_pos hprepare]
    exact counts_reply (counts_string hown hclose s bytes)
  · rw [if_neg hprepare, if_neg hprepare]
    exact Counts.same rfl

theorem counts_decoded (hown : Owned held value c.heap c.reply) (hclose : c.closeAfterReply = false) (s : List UInt8) (bytes : ℤ) :
    Counts size c (addReplyDecoded c s) bytes (replyBytes size { c with heap := createObject c.heap (some (.raw s)) } s bytes) := by
  have hown₁ := hown.create_held (.raw s)
  set c₁ : Client := { c with heap := createObject c.heap (some (.raw s)) } with hc₁
  have hptr : (c₁.heap.obj c.heap.next).ptr = some (.raw s) := by
    rw [hc₁]
    simp only [createObject, update_self]
  have hobject : Counts size c₁ _ _ _ := counts_object (c := c₁) hown₁ hclose hptr bytes
  have hcounts := counts_reply hobject
  have hsame : shown c₁ = shown c := map_sds fun ln hln => by rw [hc₁, createObject_obj _ _ (hown.below hln).ne]
  rw [Counts] at hcounts ⊢
  rw [hsame] at hcounts
  rw [← hcounts, addReplyDecoded, ← hc₁, shown, shown]
  rw [map_sds fun ln _ => decrRefCount_ptr _ _ ln.value]

theorem counts_addReply {o : ℕ} (hown : Owned held value c.heap c.reply) (hclose : c.closeAfterReply = false) (installed : Bool) (ho : 0 < held o) (bytes : ℤ) :
    Counts size c (addReply installed c o) bytes (addReplyBytes size installed c o bytes) := by
  have hptr := hown.kept o ho
  rw [addReply, addReplyBytes]
  by_cases hprepare : prepareClientToWrite installed c = true
  swap
  · rw [if_neg hprepare, if_neg hprepare]
    exact Counts.same rfl
  rw [if_pos hprepare, if_pos hprepare, hptr]
  cases hvalue : value o with
  | raw s =>
    rw [hvalue] at hptr
    exact counts_reply (counts_object hown hclose hptr bytes)
  | int v =>
    dsimp only
    rw [addReplyInt]
    by_cases hroom : c.reply = [] ∧ 32 ≤ replyChunkBytes - c.buf.length
    · rw [if_pos hroom]
      cases hbuf : addReplyToBuffer c (ll2string v.1) with
      | some c₁ =>
        rw [if_pos ⟨hroom, isSome_some⟩]
        exact Counts.same (addReplyToBuffer_shown hbuf)
      | none =>
        rw [if_neg (by rw [isSome_none]; exact fun h => Bool.false_ne_true h.2)]
        exact counts_decoded hown hclose _ bytes
    · rw [if_neg hroom, if_neg fun h => hroom h.1]
      exact counts_decoded hown hclose _ bytes

theorem counts_addDeferred (hown : Owned held value c.heap c.reply) (installed : Bool) (bytes : ℤ) :
    Counts size c (addDeferredMultiBulkLength installed c).1 bytes bytes := by
  rw [addDeferredMultiBulkLength]
  by_cases hprepare : prepareClientToWrite installed c = true
  swap
  · rw [if_neg hprepare]
    exact Counts.same rfl
  rw [if_pos hprepare]
  have hsame : ∀ ln ∈ c.reply, ((createObject c.heap none).obj ln.value).ptr = (c.heap.obj ln.value).ptr := by
    intro ln hln
    rw [createObject_obj _ _ (hown.below hln).ne]
  have hnew : shown (listAddNewObject c none) = shown c ++ [none] := by
    rw [shown, listAddNewObject, listAddNodeTail]
    rw [map_append, map_singleton, map_sds hsame, shown]
    simp [createObject, Obj.sds]
  rw [Counts, hnew, listSize_append, listSize_none]
  simp only [listSize, map_nil, sum_nil]
  omega

theorem counts_setDeferred {a : ℕ} (hsound : Sound held value c) (ha : a ∈ Draft.holes (pieces c)) (length : Long) (bytes : ℤ) :
    Counts size c (setDeferredMultiBulkLength c (some a) length) bytes (setDeferredBytes size c (some a) length bytes) := by
  obtain ⟨hown, hplaced⟩ := hsound
  rw [pieces, Draft.holes_append, Draft.holes_solid, nil_append, mem_holes] at ha
  obtain ⟨ln, hln, haddr, hnull⟩ := ha
  obtain ⟨rest, hdrop, hcut, -, -⟩ := node_cut hplaced hln haddr
  rw [setDeferredMultiBulkLength, setDeferredBytes, hdrop]
  dsimp only
  generalize c.reply.takeWhile (fun ln => ln.addr ≠ a) = front at hcut ⊢
  generalize multiBulkHeader length = s
  have hown' := hown
  rw [hcut] at hown'
  obtain ⟨-, honly⟩ := header_alone hown' hnull
  have hsame : ∀ (t : List UInt8) (l : List ListNode), (∀ x ∈ l, x ∈ front ∨ x ∈ rest) →
      (l.map fun x => ((setPtr c.heap ln.value t).obj x.value).sds) = l.map fun x => (c.heap.obj x.value).sds :=
    fun t l hl => map_sds fun x hx => by rw [setPtr_obj _ _ (honly x (hl x hx))]
  have hold : shown c = (front.map fun x => (c.heap.obj x.value).sds) ++ none :: rest.map fun x => (c.heap.obj x.value).sds := by
    rw [shown, hcut, map_append, map_cons, hnull]
  -- the header gets its string, and the next node stays
  have hplain : Counts size c { c with heap := setPtr c.heap ln.value s } bytes (bytes + size s) := by
    have hnew : shown { c with heap := setPtr c.heap ln.value s } =
        (front.map fun x => (c.heap.obj x.value).sds) ++ some s :: rest.map fun x => (c.heap.obj x.value).sds := by
      rw [shown]
      rw [hcut, map_append, map_cons, setPtr_sds, hsame s front fun x hx => Or.inl hx, hsame s rest fun x hx => Or.inr hx]
    rw [Counts, hold, hnew, listSize_append, listSize_append, listSize_some, listSize_none]
    omega
  cases hrest : rest with
  | nil => exact hplain
  | cons next rest' =>
    rw [glueToNext, glueBytes]
    cases hsds : (c.heap.obj next.value).sds with
    | none => exact hplain
    | some t =>
      dsimp only
      have hself : ((setPtr c.heap ln.value (s ++ t)).obj ln.value).sds = some (s ++ t) := setPtr_sds _ _ _
      have hnew : shown { c with heap := decrRefCount (setPtr c.heap ln.value (s ++ t)) next.value, reply := front ++ ln :: rest' } =
          (front.map fun x => (c.heap.obj x.value).sds) ++ some (s ++ t) :: rest'.map fun x => (c.heap.obj x.value).sds := by
        rw [shown]
        rw [map_sds fun x _ => decrRefCount_ptr _ _ x.value, map_append, map_cons, hself, hsame _ front fun x hx => Or.inl hx,
          hsame _ rest' fun x hx => Or.inr (by rw [hrest]; exact mem_cons_of_mem _ hx)]
      rw [Counts, hold, hnew, hrest, map_cons, hsds, listSize_append, listSize_append, listSize_some, listSize_none, listSize_some]
      omega

/-- **The counter is too large by the empty strings** that have been deleted. -/
def Balanced (size : List UInt8 → ℕ) (c : Client) (t : Tally) : Prop := t.bytes = listSize size (shown c) + t.emptied * size []

variable {t : Tally}

theorem Balanced.counts {bytes' : ℤ} (h : Balanced size c t) (hcounts : Counts size c c' t.bytes bytes') :
    Balanced size c' { t with bytes := bytes' } := by
  rw [Counts, h] at hcounts
  rw [Balanced]
  dsimp only
  omega

theorem dropEmpty_listSize : ∀ (l : List ListNode) (h : Heap),
    listSize size ((dropEmpty h l).2.map fun ln => ((dropEmpty h l).1.obj ln.value).sds) + ((l.length - (dropEmpty h l).2.length : ℕ) : ℤ) * size [] =
      listSize size (l.map fun ln => (h.obj ln.value).sds) ∧ (dropEmpty h l).2.length ≤ l.length := by
  intro l
  induction l with
  | nil =>
    intro h
    rw [dropEmpty]
    simp
  | cons ln rest ih =>
    intro h
    rw [dropEmpty]
    by_cases hempty : (h.obj ln.value).sds = some []
    · obtain ⟨ih1, ih2⟩ := ih (decrRefCount h ln.value)
      rw [if_pos hempty]
      rw [map_sds (l := rest) fun x _ => decrRefCount_ptr h ln.value x.value] at ih1
      refine ⟨?_, by rw [length_cons]; omega⟩
      rw [map_cons, hempty, listSize_some, ← ih1, length_cons,
        show rest.length + 1 - (dropEmpty (decrRefCount h ln.value) rest).2.length = (rest.length - (dropEmpty (decrRefCount h ln.value) rest).2.length) + 1 by
          omega]
      push_cast
      ring
    · rw [if_neg hempty]
      simp

theorem skipEmpty_balanced (h : Balanced size c t) : Balanced size (skipEmpty c) { t with emptied := t.emptied + emptyInFront c } := by
  have hdrop := (@dropEmpty_listSize size c.reply c.heap).1
  rw [emptyInFront, skipEmpty]
  by_cases hbuf : c.buf = []
  · rw [if_pos hbuf]
    rw [Balanced, shown] at h ⊢
    rw [h, ← hdrop]
    push_cast
    ring
  · rw [if_neg hbuf, Nat.sub_self, Nat.add_zero]
    exact h

theorem counts_advance (h : Balanced size c t) (n : ℕ) (hholes : ∀ ln ∈ c.reply, (c.heap.obj ln.value).sds ≠ none) :
    Balanced size (advance c n) { t with bytes := advanceBytes size c n t.bytes } := by
  rw [advance, advanceBytes]
  by_cases hall : c.sentlen + n ≠ (headBytes c).length
  · rw [if_pos hall, if_neg fun hand => hall hand.1]
    exact h
  rw [if_neg hall]
  by_cases hbuf : c.buf ≠ []
  · rw [if_pos hbuf, if_neg fun hand => hbuf hand.2.1]
    exact h
  rw [if_neg hbuf]
  cases hreply : c.reply with
  | nil =>
    rw [if_neg fun hand => hand.2.2 rfl]
    rw [Balanced, shown, hreply] at h
    exact h
  | cons ln rest =>
    rw [if_pos ⟨not_ne_iff.1 hall, not_ne_iff.1 hbuf, cons_ne_nil _ _⟩]
    cases hsds : (c.heap.obj ln.value).sds with
    | none => exact absurd hsds (hholes ln (by rw [hreply]; exact mem_cons_self))
    | some s =>
      have hhead : headBytes c = s := by
        rw [headBytes, if_neg hbuf, hreply, List.head?_cons, bind_some, hsds, getD_some]
      rw [Balanced, shown, hreply, map_cons, hsds, listSize_some] at h
      rw [Balanced, shown]
      rw [map_sds fun x _ => decrRefCount_ptr _ _ x.value, hhead, h]
      ring

variable {draft : Draft UInt8 ℕ}

theorem no_header (hshows : Shows draft c) (hholes : Draft.holes draft = []) : ∀ ln ∈ c.reply, (c.heap.obj ln.value).sds ≠ none := by
  intro ln hln hnull
  have hmem : ln.addr ∈ Draft.holes (pieces c) := by
    rw [pieces, Draft.holes_append]
    exact mem_append_right _ (mem_holes.2 ⟨ln, hln, rfl, hnull⟩)
  rw [← hshows.holes, hholes] at hmem
  exact not_mem_nil hmem

theorem sendLoop_balanced (hholes : Draft.holes draft = []) : ∀ (ws : List (WriteResult × Bool)) {totwritten : ℕ} {c c' : Client} {t : Tally},
    Sound held value c → Shows draft c → Balanced size c t → sendLoop ws totwritten c = some c' → Balanced size c' (sendLoopTally size ws totwritten c t) := by
  intro ws
  induction ws with
  | nil =>
    intro totwritten c c' t hsound hshows hbalanced hloop
    have hskip := skipEmpty_balanced hbalanced
    rw [sendLoop.eq_def] at hloop
    rw [sendLoopTally.eq_def]
    dsimp only at hloop ⊢
    rw [ite_self] at hloop ⊢
    obtain rfl := Option.some.inj hloop
    exact hskip
  | cons w ws ih =>
    intro totwritten c c' t hsound hshows hbalanced hloop
    have hskip := skipEmpty_balanced hbalanced
    obtain ⟨hsound₁, hshows₁, -⟩ := skipEmpty_spec hsound hshows
    obtain ⟨w, limited⟩ := w
    rw [sendLoop.eq_def] at hloop
    rw [sendLoopTally.eq_def]
    dsimp only at hloop ⊢
    by_cases hidle : (skipEmpty c).buf = [] ∧ (skipEmpty c).reply = []
    · rw [if_pos hidle] at hloop ⊢
      obtain rfl := Option.some.inj hloop
      exact hskip
    rw [if_neg hidle] at hloop ⊢
    cases w with
    | eagain =>
      obtain rfl := Option.some.inj hloop
      exact hskip
    | error => cases hloop
    | accepted n =>
      dsimp only at hloop ⊢
      by_cases hzero : min n ((headBytes (skipEmpty c)).length - (skipEmpty c).sentlen) = 0
      · rw [if_pos hzero] at hloop ⊢
        obtain rfl := Option.some.inj hloop
        exact hskip
      rw [if_neg hzero] at hloop ⊢
      have hadvance := counts_advance hskip (min n ((headBytes (skipEmpty c)).length - (skipEmpty c).sentlen)) (no_header hshows₁ hholes)
      by_cases hlimit : totwritten + min n ((headBytes (skipEmpty c)).length - (skipEmpty c).sentlen) > maxWritePerEvent ∧ limited = true
      · rw [if_pos hlimit] at hloop ⊢
        obtain rfl := Option.some.inj hloop
        exact hadvance
      · rw [if_neg hlimit] at hloop ⊢
        obtain ⟨hsound₂, hshows₂, -⟩ := advance_spec hsound₁ hshows₁ hholes (Nat.min_le_right n _)
        exact ih hsound₂ hshows₂ hadvance hloop

theorem sendReplyToClient_balanced {ws : List (WriteResult × Bool)} (hsound : Sound held value c)
    (hshows : Shows draft c) (hholes : Draft.holes draft = []) (hbalanced : Balanced size c t) (hsend : sendReplyToClient ws c = some c') :
    Balanced size c' (sendLoopTally size ws 0 c t) := by
  obtain ⟨c₁, hloop, hsend⟩ := bind_eq_some_iff.1 hsend
  have hloop := sendLoop_balanced hholes ws hsound hshows hbalanced hloop
  split at hsend
  · split at hsend
    · cases hsend
    · rw [← Option.some.inj hsend]
      exact hloop
  · rw [← Option.some.inj hsend]
    exact hloop

theorem Session.step_balanced {s s' : Session} {e : Event} (hok : s.Ok) (hbalanced : Balanced size s.client t) (hstep : s.step e = some s') :
    Balanced size s'.client (e.tally size s.client t) := by
  have hown := hok.sound.owned
  cases e with
  | addReply installed o =>
    by_cases ho : 0 < s.held o
    · rw [Session.step, if_pos ho] at hstep
      obtain rfl := Option.some.inj hstep
      exact hbalanced.counts (counts_addReply hown hok.closeAfterReply installed ho t.bytes)
    · rw [Session.step, if_neg ho] at hstep
      cases hstep
  | addReplySds installed s =>
    obtain rfl := Option.some.inj hstep
    exact hbalanced.counts (counts_addReplyString hown hok.closeAfterReply installed s t.bytes)
  | addReplyString installed s =>
    obtain rfl := Option.some.inj hstep
    exact hbalanced.counts (counts_addReplyString hown hok.closeAfterReply installed s t.bytes)
  | addDeferredMultiBulkLength installed =>
    obtain rfl := Option.some.inj hstep
    exact hbalanced.counts (counts_addDeferred hown installed t.bytes)
  | setDeferredMultiBulkLength node length =>
    cases node with
    | none =>
      obtain rfl := Option.some.inj hstep
      exact hbalanced
    | some a =>
      by_cases ha : a ∈ Draft.holes s.draft
      · rw [Session.step, if_pos ha] at hstep
        obtain rfl := Option.some.inj hstep
        rw [hok.shows.holes] at ha
        exact hbalanced.counts (counts_setDeferred hok.sound ha length t.bytes)
      · rw [Session.step, if_neg ha] at hstep
        cases hstep
  | sendReplyToClient ws =>
    by_cases hholes : Draft.holes s.draft = []
    · rw [Session.step, if_pos hholes] at hstep
      obtain ⟨c', hsend, rfl⟩ := map_eq_some_iff.1 hstep
      exact sendReplyToClient_balanced hok.sound hok.shows hholes hbalanced hsend
    · rw [Session.step, if_neg hholes] at hstep
      cases hstep
  | createObject v =>
    obtain rfl := Option.some.inj hstep
    refine hbalanced.counts (Counts.same (map_sds fun ln hln => ?_))
    rw [createObject_obj _ _ (hown.below hln).ne]
  | incrRefCount o =>
    by_cases ho : 0 < s.held o
    · rw [Session.step, if_pos ho] at hstep
      obtain rfl := Option.some.inj hstep
      exact hbalanced.counts (Counts.same (map_sds fun ln _ => incrRefCount_ptr _ _ _))
    · rw [Session.step, if_neg ho] at hstep
      cases hstep
  | decrRefCount o =>
    by_cases ho : 0 < s.held o
    · rw [Session.step, if_pos ho] at hstep
      obtain rfl := Option.some.inj hstep
      exact hbalanced.counts (Counts.same (map_sds fun ln _ => decrRefCount_ptr _ _ _))
    · rw [Session.step, if_neg ho] at hstep
      cases hstep

theorem Session.run_balanced : ∀ (es : List Event) {s s' : Session} {t t' : Tally}, s.Ok → Balanced size s.client t → s.runTally size t es = some (s', t') →
    Balanced size s'.client t' := by
  intro es
  induction es with
  | nil =>
    intro s s' t t' _ hbalanced hrun
    obtain ⟨rfl, rfl⟩ := Prod.mk.inj (Option.some.inj hrun)
    exact hbalanced
  | cons e es ih =>
    intro s s' t t' hok hbalanced hrun
    obtain ⟨s₁, hstep, hrun⟩ := bind_eq_some_iff.1 hrun
    exact ih (s.step_ok hok hstep) (s.step_balanced hok hbalanced hstep) hrun

/-- **The counter is the size of the list of replies**, and 0 when there are none, if and only if no empty string has been deleted at the
front of the list, or an empty string takes nothing. -/
theorem replyBytes_iff (size : List UInt8 → ℕ) (fd : ℤ) (es : List Event) (s : Session) (t : Tally)
    (hrun : (Session.start fd).runTally size ⟨0, 0⟩ es = some (s, t)) :
    (t.bytes = listSize size (shown s.client) ∧ (s.client.reply = [] → t.bytes = 0)) ↔ t.emptied = 0 ∨ size [] = 0 := by
  have hstart : Balanced size (Session.start fd).client ⟨0, 0⟩ := by
    rw [Balanced, Nat.cast_zero, zero_mul, add_zero]
    rfl
  have hbalanced : Balanced size s.client t := Session.run_balanced es (Session.start_ok fd) hstart hrun
  rw [Balanced] at hbalanced
  have hempty : s.client.reply = [] → listSize size (shown s.client) = 0 := by
    intro hreply
    rw [shown, hreply]
    rfl
  have hlost : (t.emptied : ℤ) * size [] = 0 ↔ t.emptied = 0 ∨ size [] = 0 := by
    rw [mul_eq_zero, Nat.cast_eq_zero, Nat.cast_eq_zero]
  constructor
  · rintro ⟨h, -⟩
    omega
  · intro h
    refine ⟨by omega, fun hreply => ?_⟩
    have := hempty hreply
    omega

/-- `zmalloc_size_sds` of a string with nothing free behind it. -/
def sdsSize (s : List UInt8) : ℕ := 8 + s.length + 1

theorem plainTally_run : ((Session.start 5).runTally sdsSize ⟨0, 0⟩ plainEvents).isSome = true := by decide +kernel

def plainTally : Session × Tally := ((Session.start 5).runTally sdsSize ⟨0, 0⟩ plainEvents).get plainTally_run

theorem plainTally_eq : (Session.start 5).runTally sdsSize ⟨0, 0⟩ plainEvents = some plainTally := (some_get plainTally_run).symm

theorem replyBytes_plain : plainTally.2.bytes = listSize sdsSize (shown plainTally.1.client) ∧ (plainTally.1.client.reply = [] → plainTally.2.bytes = 0) :=
  (replyBytes_iff sdsSize 5 plainEvents plainTally.1 plainTally.2 (by rw [Prod.mk.eta]; exact plainTally_eq)).2 (Or.inl (by decide +kernel))

def emptyEvents (s : List UInt8) : List Event := [.addReplyString true s, .addReplyString true [], .sendReplyToClient [(.accepted s.length, true)]]

theorem emptyEvents_run (size : List UInt8 → ℕ) {s : List UInt8} (hlong : replyChunkBytes < s.length) (hlen : s.length ≤ maxWritePerEvent) :
    ∃ s' t, (Session.start 5).runTally size ⟨0, 0⟩ (emptyEvents s) = some (s', t) ∧ s'.client.reply = [] ∧ t.bytes = size [] := by
  have hne : s ≠ [] := by
    rintro rfl
    exact absurd hlong (Nat.not_lt_zero _)
  have hfits : ¬ s.length ≤ replyChunkBytes := by omega
  have hnonempty : ¬ s.length = 0 := by omega
  have hlimit : ¬ maxWritePerEvent < s.length := by omega
  -- the two strings get nodes of their own
  simp [emptyEvents, Session.runTally, Session.step, Session.start, createClient, addReplyString, prepareClientToWrite, addReplyToBuffer, hlong,
    addReplyStringToList, appendToTail, listAddNewObject, listAddNodeTail, createObject, Heap.empty, Obj.sds, hfits, Event.tally, addReplyStringBytes,
    replyBytes, toListBytes, Session.accept]
  -- the first one is written, the second one is deleted
  simp [sendReplyToClient, sendLoop, sendLoopTally, skipEmpty, dropEmpty, headBytes, advance, Obj.sds, hne, hnonempty, hlimit, advanceBytes, emptyInFront,
    decrRefCount]

def longReply : List UInt8 := List.replicate (replyChunkBytes + 1) 97

theorem length_longReply : longReply.length = replyChunkBytes + 1 := length_replicate

/-- A long string and an empty one, sent in one call of `write`. -/
theorem replyBytes_lost : ∃ s t, (Session.start 5).runTally sdsSize ⟨0, 0⟩ (emptyEvents longReply) = some (s, t) ∧
    ¬ (t.bytes = listSize sdsSize (shown s.client) ∧ (s.client.reply = [] → t.bytes = 0)) := by
  have hlength := length_longReply
  have hchunk : replyChunkBytes = 16384 := rfl
  have hevent : maxWritePerEvent = 65536 := rfl
  obtain ⟨s, t, hrun, hreply, hbytes⟩ := emptyEvents_run sdsSize (s := longReply) (by omega) (by omega)
  refine ⟨s, t, hrun, fun h => ?_⟩
  have hzero := h.2 hreply
  rw [hbytes] at hzero
  exact absurd hzero (by decide)

end KVStores.Redis.Reply
