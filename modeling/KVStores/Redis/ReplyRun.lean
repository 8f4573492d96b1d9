import KVStores.Redis.ReplySpec

/-!
# The output of a client

Replies are added, lengths set and bytes sent in any order, and the rest of the server makes, takes and lets go of objects.
-/

namespace KVStores.Redis.Reply

open Function (update)

variable {held : ℕ → ℕ} {value : ℕ → Robj} {h : Heap} {c c' : Client} {l : List ListNode} {s : List UInt8} {draft d : Draft UInt8 ℕ}

def unsent (c : Client) : Draft UInt8 ℕ := (pieces c).drop c.sentlen

structure Shows (draft : Draft UInt8 ℕ) (c : Client) : Prop where
  small : c.sentlen ≤ (headBytes c).length
  split : ∃ front rest, front.length = c.sentlen ∧ pieces c = Draft.solid front ++ rest ∧ draft = Draft.solid c.socket ++ rest

theorem Shows.unsent (hshows : Shows draft c) : draft = Draft.solid c.socket ++ Reply.unsent c := by
  obtain ⟨front, rest, hlen, hpieces, hdraft⟩ := hshows.split
  rw [Reply.unsent, hpieces, ← hlen, hdraft, ← Draft.length_solid (ι := ℕ) front, List.drop_left]

theorem Shows.holes (hshows : Shows draft c) : Draft.holes draft = Draft.holes (pieces c) := by
  obtain ⟨front, rest, -, hpieces, hdraft⟩ := hshows.split
  rw [hpieces, hdraft, Draft.holes_append, Draft.holes_append, Draft.holes_solid, Draft.holes_solid]

theorem Shows.adds (hshows : Shows draft c) (hadds : Adds c c' d) : Shows (draft ++ d) c' := by
  obtain ⟨front, rest, hlen, hpieces, hdraft⟩ := hshows.split
  refine ⟨?_, front, rest ++ d, hlen.trans hadds.sentlen.symm, ?_, ?_⟩
  · rw [hadds.sentlen]
    exact hshows.small.trans hadds.front
  · rw [hadds.pieces, hpieces, List.append_assoc]
  · rw [hadds.socket, hdraft, List.append_assoc]

theorem Shows.fills {a : ℕ} (hshows : Shows draft c) (hfills : Fills c c' a s) : Shows (Draft.fill a s draft) c' := by
  obtain ⟨front, rest, hlen, hpieces, hdraft⟩ := hshows.split
  have hsolid : ∀ t : List UInt8, Draft.fill a s (Draft.solid t) = Draft.solid t := fun t => Draft.fill_absent (by
    rw [Draft.holes_solid]
    exact List.not_mem_nil)
  refine ⟨?_, front, Draft.fill a s rest, hlen.trans hfills.sentlen.symm, ?_, ?_⟩
  · rw [hfills.sentlen]
    exact hshows.small.trans hfills.front
  · rw [hfills.pieces, hpieces, Draft.fill_append, hsolid]
  · rw [hfills.socket, hdraft, Draft.fill_append, hsolid]

theorem dropEmpty_spec : ∀ {l : List ListNode} {h : Heap}, Owned held value h l → Owned held value (dropEmpty h l).1 (dropEmpty h l).2 ∧
      (dropEmpty h l).2.flatMap (nodePieces (dropEmpty h l).1) = l.flatMap (nodePieces h) ∧ (dropEmpty h l).2.Sublist l := by
  intro l
  induction l with
  | nil =>
    intro h hown
    exact ⟨hown, rfl, List.Sublist.refl _⟩
  | cons ln rest ih =>
    intro h hown
    rw [dropEmpty]
    by_cases hempty : (h.obj ln.value).sds = some []
    · rw [if_pos hempty]
      obtain ⟨h1, h2, h3⟩ := ih hown.decr_head
      refine ⟨h1, ?_, h3.cons _⟩
      rw [h2, flatMap_nodePieces fun x _ => decrRefCount_ptr h ln.value x.value, List.flatMap_cons, nodePieces, hempty, Option.elim_some, Draft.solid_nil, List.nil_append]
    · rw [if_neg hempty]
      exact ⟨hown, rfl, List.Sublist.refl _⟩

theorem dropEmpty_nonempty (hhead : (l.head?.bind fun ln => (h.obj ln.value).sds) ≠ some []) : dropEmpty h l = (h, l) := by
  cases l with
  | nil => rfl
  | cons ln rest => exact if_neg hhead

theorem skipEmpty_spec (hsound : Sound held value c) (hshows : Shows draft c) :
    Sound held value (skipEmpty c) ∧ Shows draft (skipEmpty c) ∧ (skipEmpty c).closeAfterReply = c.closeAfterReply := by
  rw [skipEmpty]
  by_cases hbuf : c.buf = []
  swap
  · rw [if_neg hbuf]
    exact ⟨hsound, hshows, rfl⟩
  rw [if_pos hbuf]
  obtain ⟨h1, h2, h3⟩ := dropEmpty_spec hsound.owned
  obtain ⟨front, rest, hlen, hpieces, hdraft⟩ := hshows.split
  refine ⟨⟨h1, hsound.placed.nodup.sublist (h3.map _), fun x hx => hsound.placed.below x (h3.subset hx)⟩,
    ⟨?_, front, rest, hlen, ?_, hdraft⟩, rfl⟩
  · -- when some of the first object has been sent, it is not empty
    by_cases hempty : (c.reply.head?.bind fun ln => (c.heap.obj ln.value).sds) = some []
    · have hsmall := hshows.small
      rw [headBytes, if_neg (not_not.2 hbuf), hempty] at hsmall
      rw [Nat.le_zero.1 hsmall]
      exact Nat.zero_le _
    · rw [dropEmpty_nonempty hempty]
      exact hshows.small
  · rw [← hpieces, pieces, pieces]
    rw [h2]

def behind (c : Client) : Draft UInt8 ℕ :=
  if c.buf ≠ [] then c.reply.flatMap (nodePieces c.heap) else c.reply.tail.flatMap (nodePieces c.heap)

theorem pieces_front (hholes : Draft.holes (pieces c) = []) : pieces c = Draft.solid (headBytes c) ++ behind c := by
  rw [headBytes, behind]
  by_cases hbuf : c.buf ≠ []
  · rw [if_pos hbuf, if_pos hbuf, pieces]
  rw [if_neg hbuf, if_neg hbuf, pieces, not_ne_iff.1 hbuf]
  rw [pieces, Draft.holes_append] at hholes
  have hlist := (List.append_eq_nil_iff.1 hholes).2
  cases hreply : c.reply with
  | nil => rfl
  | cons ln rest =>
    cases hsds : (c.heap.obj ln.value).sds with
    | none =>
      have hmem : ln.addr ∈ Draft.holes (c.reply.flatMap (nodePieces c.heap)) :=
        mem_holes.2 ⟨ln, by rw [hreply]; exact List.mem_cons_self, rfl, hsds⟩
      rw [hlist] at hmem
      exact absurd hmem List.not_mem_nil
    | some t =>
      rw [List.flatMap_cons, nodePieces, hsds, List.head?_cons, Option.bind_some, hsds]
      rfl

theorem advance_spec (hsound : Sound held value c) (hshows : Shows draft c) (hholes : Draft.holes draft = []) {n : ℕ}
    (hn : n ≤ (headBytes c).length - c.sentlen) :
    Sound held value (advance c n) ∧ Shows draft (advance c n) ∧ (advance c n).closeAfterReply = c.closeAfterReply := by
  have hsmall := hshows.small
  have hfront := pieces_front (hshows.holes.symm.trans hholes)
  obtain ⟨front, rest, hlen, hpieces, hdraft⟩ := hshows.split
  obtain ⟨hfr, hrest⟩ := Draft.solid_take (hpieces.symm.trans hfront) (by omega)
  -- the bytes that are sent now are cut off what was still to be sent
  have hcut : (headBytes c).drop c.sentlen = ((headBytes c).drop c.sentlen).take n ++ (headBytes c).drop (c.sentlen + n) := by
    rw [← List.drop_drop, List.take_append_drop]
  have hdraft' : draft = Draft.solid (c.socket ++ ((headBytes c).drop c.sentlen).take n) ++
      (Draft.solid ((headBytes c).drop (c.sentlen + n)) ++ behind c) := by
    rw [hdraft, hrest, hlen]
    conv_lhs => rw [hcut]
    simp only [Draft.solid_append, List.append_assoc]
  rw [advance]
  by_cases hall : c.sentlen + n ≠ (headBytes c).length
  · rw [if_pos hall]
    refine ⟨⟨hsound.owned, hsound.placed⟩, ⟨?_, (headBytes c).take (c.sentlen + n), _, ?_, ?_, hdraft'⟩, rfl⟩
    · change c.sentlen + n ≤ (headBytes c).length
      omega
    · rw [List.length_take]
      dsimp only
      omega
    · rw [← List.append_assoc, ← Draft.solid_append, List.take_append_drop]
      exact hfront
  rw [if_neg hall]
  have hend : (headBytes c).drop (c.sentlen + n) = [] := by
    rw [not_ne_iff.1 hall]
    exact List.drop_length
  rw [hend, Draft.solid_nil, List.nil_append, behind] at hdraft'
  by_cases hbuf : c.buf ≠ []
  · rw [if_pos hbuf] at hdraft' ⊢
    exact ⟨⟨hsound.owned, hsound.placed⟩, ⟨Nat.zero_le _, [], _, rfl, rfl, hdraft'⟩, rfl⟩
  rw [if_neg hbuf] at hdraft' ⊢
  have hnil := not_ne_iff.1 hbuf
  cases hreply : c.reply with
  | nil =>
    have hbytes : headBytes c = [] := by
      rw [headBytes, if_neg hbuf, hreply]
      rfl
    have hzero : c.sentlen + n = 0 := by
      rw [not_ne_iff.1 hall, hbytes]
      rfl
    have hown := hsound.owned
    have hplaced := hsound.placed
    rw [hreply] at hown hplaced hdraft'
    refine ⟨⟨hown, hplaced⟩, ⟨?_, [], _, hzero.symm, ?_, hdraft'⟩, rfl⟩
    · rw [hzero]
      exact Nat.zero_le _
    · dsimp only
      rw [hnil]
      rfl
  | cons ln rest' =>
    dsimp only
    have hown := hsound.owned
    rw [hreply] at hown hdraft'
    have hplaced := hsound.placed
    rw [hreply] at hplaced
    refine ⟨⟨hown.decr_head, hplaced.nodup.of_cons, fun x hx => hplaced.below x (List.mem_cons_of_mem _ hx)⟩,
      ⟨Nat.zero_le _, [], _, rfl, ?_, hdraft'⟩, rfl⟩
    rw [pieces, hnil, flatMap_nodePieces fun x _ => decrRefCount_ptr c.heap ln.value x.value]
    rfl

theorem sendLoop_spec : ∀ (ws : List (WriteResult × Bool)) {totwritten : ℕ} {c c' : Client}, Sound held value c → Shows draft c →
    Draft.holes draft = [] → sendLoop ws totwritten c = some c' →
    Sound held value c' ∧ Shows draft c' ∧ c'.closeAfterReply = c.closeAfterReply := by
  intro ws
  induction ws with
  | nil =>
    intro totwritten c c' hsound hshows hholes hloop
    have hskip := skipEmpty_spec hsound hshows
    rw [sendLoop.eq_def] at hloop
    dsimp only at hloop
    rw [ite_self] at hloop
    obtain rfl := Option.some.inj hloop
    exact hskip
  | cons w ws ih =>
    intro totwritten c c' hsound hshows hholes hloop
    have hskip := skipEmpty_spec hsound hshows
    obtain ⟨w, limited⟩ := w
    rw [sendLoop.eq_def] at hloop
    dsimp only at hloop
    by_cases hidle : (skipEmpty c).buf = [] ∧ (skipEmpty c).reply = []
    · rw [if_pos hidle] at hloop
      obtain rfl := Option.some.inj hloop
      exact hskip
    rw [if_neg hidle] at hloop
    cases w with
    | eagain =>
      obtain rfl := Option.some.inj hloop
      exact hskip
    | error => exact absurd hloop nofun
    | accepted n =>
      dsimp only at hloop
      by_cases hzero : min n ((headBytes (skipEmpty c)).length - (skipEmpty c).sentlen) = 0
      · rw [if_pos hzero] at hloop
        obtain rfl := Option.some.inj hloop
        exact hskip
      rw [if_neg hzero] at hloop
      obtain ⟨h1, h2, h3⟩ := hskip
      have hadvance := advance_spec h1 h2 hholes (n := min n ((headBytes (skipEmpty c)).length - (skipEmpty c).sentlen)) (Nat.min_le_right _ _)
      by_cases hlimit : totwritten + min n ((headBytes (skipEmpty c)).length - (skipEmpty c).sentlen) > maxWritePerEvent ∧ limited = true
      · rw [if_pos hlimit] at hloop
        obtain rfl := Option.some.inj hloop
        exact ⟨hadvance.1, hadvance.2.1, hadvance.2.2.trans h3⟩
      · rw [if_neg hlimit] at hloop
        obtain ⟨h4, h5, h6⟩ := ih hadvance.1 hadvance.2.1 hholes hloop
        exact ⟨h4, h5, h6.trans (hadvance.2.2.trans h3)⟩

theorem sendReplyToClient_spec {ws : List (WriteResult × Bool)} (hsound : Sound held value c) (hshows : Shows draft c)
    (hholes : Draft.holes draft = []) (hsend : sendReplyToClient ws c = some c') :
    Sound held value c' ∧ Shows draft c' ∧ c'.closeAfterReply = c.closeAfterReply := by
  obtain ⟨c₁, hloop, hsend⟩ := Option.bind_eq_some_iff.1 hsend
  obtain ⟨h1, h2, h3⟩ := sendLoop_spec ws hsound hshows hholes hloop
  by_cases hidle : c₁.buf = [] ∧ c₁.reply = []
  swap
  · rw [if_neg hidle] at hsend
    obtain rfl := Option.some.inj hsend
    exact ⟨h1, h2, h3⟩
  rw [if_pos hidle] at hsend
  by_cases hclose : c₁.closeAfterReply = true
  · rw [if_pos hclose] at hsend
    exact absurd hsend nofun
  rw [if_neg hclose] at hsend
  obtain rfl := Option.some.inj hsend
  obtain ⟨front, rest, hlen, hpieces, hdraft⟩ := h2.split
  have hnil : Draft.solid front ++ rest = ([] : Draft UInt8 ℕ) := by
    rw [← hpieces, pieces, hidle.1, hidle.2]
    rfl
  exact ⟨⟨h1.owned, h1.placed⟩, ⟨Nat.zero_le _, [], rest, rfl, hpieces.trans (by rw [hnil, (List.append_eq_nil_iff.1 hnil).2]; rfl), hdraft⟩, h3⟩

/-- The client, what the rest of the server refers to, with the value each object was made with, and all replies so far. -/
structure Session where
  client : Client
  held : ℕ → ℕ
  value : ℕ → Robj
  draft : Draft UInt8 ℕ

def Session.start (fd : ℤ) : Session := ⟨createClient fd Heap.empty, fun _ => 0, fun _ => .raw [], []⟩

/-- What happens; `installed` is whether the event loop takes the write handler, if it is asked. -/
inductive Event
  | addReply (installed : Bool) (o : ℕ)
  | addReplySds (installed : Bool) (s : List UInt8)
  | addReplyString (installed : Bool) (s : List UInt8)
  | addDeferredMultiBulkLength (installed : Bool)
  | setDeferredMultiBulkLength (node : Option ℕ) (length : Long)
  | sendReplyToClient (ws : List (WriteResult × Bool))
  | createObject (v : Robj)
  | incrRefCount (o : ℕ)
  | decrRefCount (o : ℕ)

/-- A reply is accepted when `prepareClientToWrite` returns `REDIS_OK`. -/
def Session.accept (s : Session) (installed : Bool) (d : Draft UInt8 ℕ) : Draft UInt8 ℕ :=
  if prepareClientToWrite installed s.client = true then s.draft ++ d else s.draft

/-- One event. `none` when a caller breaks the rules (an object it does not refer to, a node it did not get or has set, sending
with a length not set) or the client is freed. -/
@[grind =] def Session.step (s : Session) : Event → Option Session
  | .addReply installed o =>
    if 0 < s.held o then
      some { s with client := Reply.addReply installed s.client o, draft := s.accept installed (Draft.solid (getDecodedObject (s.value o))) }
    else none
  | .addReplySds installed t =>
    some { s with client := Reply.addReplySds installed s.client t, draft := s.accept installed (Draft.solid t) }
  | .addReplyString installed t =>
    some { s with client := Reply.addReplyString installed s.client t, draft := s.accept installed (Draft.solid t) }
  | .addDeferredMultiBulkLength installed =>
    some { s with client := (Reply.addDeferredMultiBulkLength installed s.client).1,
                  draft := s.accept installed [Piece.hole s.client.nextNode] }
  | .setDeferredMultiBulkLength none length => some { s with client := Reply.setDeferredMultiBulkLength s.client none length }
  | .setDeferredMultiBulkLength (some a) length =>
    if a ∈ Draft.holes s.draft then
      some { s with client := Reply.setDeferredMultiBulkLength s.client (some a) length,
                    draft := Draft.fill a (multiBulkHeader length) s.draft }
    else none
  | .sendReplyToClient ws =>
    if Draft.holes s.draft = [] then (Reply.sendReplyToClient ws s.client).map fun c => { s with client := c } else none
  | .createObject v =>
    some { s with client := { s.client with heap := Reply.createObject s.client.heap (some v) },
                  held := update s.held s.client.heap.next 1, value := update s.value s.client.heap.next v }
  | .incrRefCount o =>
    if 0 < s.held o then
      some { s with client := { s.client with heap := Reply.incrRefCount s.client.heap o }, held := update s.held o (s.held o + 1) }
    else none
  | .decrRefCount o =>
    if 0 < s.held o then
      some { s with client := { s.client with heap := Reply.decrRefCount s.client.heap o }, held := update s.held o (s.held o - 1) }
    else none

@[grind =] def Session.run (s : Session) : List Event → Option Session
  | [] => some s
  | e :: es => (s.step e).bind fun s => s.run es

structure Session.Ok (s : Session) : Prop where
  sound : Sound s.held s.value s.client
  shows : Shows s.draft s.client
  closeAfterReply : s.client.closeAfterReply = false

theorem Session.start_ok (fd : ℤ) : (Session.start fd).Ok := by
  refine ⟨⟨⟨fun _ _ => rfl, fun _ => rfl, ?_, ?_⟩, ⟨List.nodup_nil, ?_⟩⟩, ⟨Nat.le_refl _, [], [], rfl, rfl, rfl⟩, rfl⟩
  · intro o ho
    exact absurd ho (Nat.lt_irrefl 0)
  · intro ln hln
    exact absurd hln List.not_mem_nil
  · intro ln hln
    exact absurd hln List.not_mem_nil

theorem Session.Ok.accept {s : Session} (hok : s.Ok) {installed : Bool} {d : Draft UInt8 ℕ} {c' : Client}
    (hadds : Sound s.held s.value c' ∧ Adds s.client c' (if prepareClientToWrite installed s.client = true then d else [])) :
    ({ s with client := c', draft := s.accept installed d } : Session).Ok := by
  obtain ⟨hsound, hadds⟩ := hadds
  refine ⟨hsound, ?_, hadds.closeAfterReply.trans hok.closeAfterReply⟩
  have hshows := hok.shows.adds hadds
  rw [Session.accept]
  by_cases hprepare : prepareClientToWrite installed s.client = true
  · rwa [if_pos hprepare] at hshows ⊢
  · rw [if_neg hprepare, List.append_nil] at hshows
    rwa [if_neg hprepare]

theorem Session.Ok.outside {s : Session} (hok : s.Ok) {held' : ℕ → ℕ} {value' : ℕ → Robj} {h' : Heap}
    (hown : Owned held' value' h' s.client.reply) (hsame : ∀ ln ∈ s.client.reply, (h'.obj ln.value).ptr = (s.client.heap.obj ln.value).ptr) :
    ({ s with client := { s.client with heap := h' }, held := held', value := value' } : Session).Ok := by
  have hadds : Adds s.client { s.client with heap := h' } [] := by
    refine ⟨?_, ?_, rfl, rfl, rfl⟩
    · rw [pieces, pieces, List.append_nil, flatMap_nodePieces hsame]
    · rw [headBytes, headBytes, head_sds hsame]
  have hshows := hok.shows.adds hadds
  rw [List.append_nil] at hshows
  exact ⟨⟨hown, hok.sound.placed⟩, hshows, hok.closeAfterReply⟩

theorem Session.step_ok {s s' : Session} {e : Event} (hok : s.Ok) (hstep : s.step e = some s') : s'.Ok := by
  cases e with
  | addReply installed o =>
    by_cases ho : 0 < s.held o
    · rw [Session.step, if_pos ho] at hstep
      obtain rfl := Option.some.inj hstep
      exact hok.accept (addReply_spec hok.sound hok.closeAfterReply installed ho)
    · rw [Session.step, if_neg ho] at hstep
      exact absurd hstep nofun
  | addReplySds installed t =>
    obtain rfl := Option.some.inj hstep
    exact hok.accept (addReplyString_spec hok.sound hok.closeAfterReply installed t)
  | addReplyString installed t =>
    obtain rfl := Option.some.inj hstep
    exact hok.accept (addReplyString_spec hok.sound hok.closeAfterReply installed t)
  | addDeferredMultiBulkLength installed =>
    obtain rfl := Option.some.inj hstep
    exact hok.accept (addDeferredMultiBulkLength_spec hok.sound installed)
  | setDeferredMultiBulkLength node length =>
    cases node with
    | none =>
      obtain rfl := Option.some.inj hstep
      exact hok
    | some a =>
      by_cases ha : a ∈ Draft.holes s.draft
      · rw [Session.step, if_pos ha] at hstep
        obtain rfl := Option.some.inj hstep
        rw [hok.shows.holes] at ha
        obtain ⟨hsound, hfills⟩ := setDeferredMultiBulkLength_spec hok.sound ha length
        exact ⟨hsound, hok.shows.fills hfills, hfills.closeAfterReply.trans hok.closeAfterReply⟩
      · rw [Session.step, if_neg ha] at hstep
        exact absurd hstep nofun
  | sendReplyToClient ws =>
    by_cases hholes : Draft.holes s.draft = []
    · rw [Session.step, if_pos hholes] at hstep
      obtain ⟨c', hsend, rfl⟩ := Option.map_eq_some_iff.1 hstep
      obtain ⟨hsound, hshows, hclose⟩ := sendReplyToClient_spec hok.sound hok.shows hholes hsend
      exact ⟨hsound, hshows, hclose.trans hok.closeAfterReply⟩
    · rw [Session.step, if_neg hholes] at hstep
      exact absurd hstep nofun
  | createObject v =>
    obtain rfl := Option.some.inj hstep
    refine hok.outside (hok.sound.owned.create_held v) ?_
    intro ln hln
    rw [createObject_obj _ _ (hok.sound.owned.below hln).ne]
  | incrRefCount o =>
    by_cases ho : 0 < s.held o
    · rw [Session.step, if_pos ho] at hstep
      obtain rfl := Option.some.inj hstep
      exact hok.outside (hok.sound.owned.incr_held ho) fun ln _ => incrRefCount_ptr _ _ _
    · rw [Session.step, if_neg ho] at hstep
      exact absurd hstep nofun
  | decrRefCount o =>
    by_cases ho : 0 < s.held o
    · rw [Session.step, if_pos ho] at hstep
      obtain rfl := Option.some.inj hstep
      exact hok.outside (hok.sound.owned.decr_held ho) fun ln _ => decrRefCount_ptr _ _ _
    · rw [Session.step, if_neg ho] at hstep
      exact absurd hstep nofun

theorem Session.run_ok : ∀ {es : List Event} {s s' : Session}, s.Ok → s.run es = some s' → s'.Ok := by
  intro es
  induction es with
  | nil =>
    intro s s' hok hrun
    obtain rfl := Option.some.inj hrun
    exact hok
  | cons e es ih =>
    intro s s' hok hrun
    obtain ⟨s₁, hstep, hrun⟩ := Option.bind_eq_some_iff.1 hrun
    exact ih (s.step_ok hok hstep) hrun

/-- **The output is the replies in their order**: what the socket has taken, followed by what is buffered and not sent, is
what has been added, each header in its place; and an object that somebody else refers to holds what it was made with. -/
theorem output_run (fd : ℤ) (es : List Event) (s : Session) (hrun : (Session.start fd).run es = some s) :
    s.draft = Draft.solid s.client.socket ++ unsent s.client ∧ ∀ o, 0 < s.held o → (s.client.heap.obj o).ptr = some (s.value o) := by
  have hok := Session.run_ok (Session.start_ok fd) hrun
  exact ⟨hok.shows.unsent, hok.sound.owned.kept⟩

def plainEvents : List Event :=
  [.createObject (.raw [43, 79, 75]), .createObject (.int ⟨7, by decide⟩), .addReply true 0, .addDeferredMultiBulkLength true, .addReply true 0,
    .addDeferredMultiBulkLength true, .addReply true 1, .setDeferredMultiBulkLength (some 2) ⟨1, by decide⟩,
    .setDeferredMultiBulkLength (some 0) ⟨2, by decide⟩, .sendReplyToClient [(.accepted 1, true), (.accepted 4, true), (.eagain, true)],
    .addReply true 0, .decrRefCount 0, .addReplySds true [36], .sendReplyToClient [(.accepted 3, true)]]

theorem plainEvents_run : ((Session.start 5).run plainEvents).isSome = true := by decide +kernel

theorem output_run_plain : (((Session.start 5).run plainEvents).get plainEvents_run).draft =
        Draft.solid (((Session.start 5).run plainEvents).get plainEvents_run).client.socket ++
          unsent (((Session.start 5).run plainEvents).get plainEvents_run).client ∧
      ∀ o, 0 < (((Session.start 5).run plainEvents).get plainEvents_run).held o →
        ((((Session.start 5).run plainEvents).get plainEvents_run).client.heap.obj o).ptr =
          some ((((Session.start 5).run plainEvents).get plainEvents_run).value o) :=
  output_run 5 plainEvents _ (Option.some_get _).symm

end KVStores.Redis.Reply
