import KVStores.Redis.QuerySpec

/-!
# Requests in pieces

The bytes of some commands come in any pieces, also while the client is blocked.

* `query_run`: each command is handed to `processCommand` as it was sent, in order, once its bytes are there, in every run in which
  the loop over the arguments does not stop at a missing length with more than 64 KB in the buffer.
-/

namespace KVStores.Redis.Query

open List Option

open Protocol

variable {args : List (List UInt8)} {own rest fut : List UInt8} {c c' : Client} {pos : ℕ} {cmds todo : List (List (List UInt8))}

/-- The parser is at the command `args`, of which it needs the bytes `own`. -/
def Current (args : List (List UInt8)) (c : Client) (own : List UInt8) : Prop :=
  (c.multibulklen = 0 ∧ c.argv = [] ∧ c.bulklen = none ∧ c.reqtype ≠ .inline ∧ own = encodeCommand args) ∨
    (c.reqtype = .multibulk ∧ Mid args c own ∧ own ≠ [])

def multibulkTame (c : Client) : Bool :=
  if c.multibulklen ≠ 0 then bulkLoopTame c.multibulklen c 0
  else
    match readLine c.querybuf 0 with
    | .whole newline =>
      match string2ll ((c.querybuf.take newline).drop 1) with
      | some ll =>
        if ll.1 > 1024 * 1024 ∨ ll.1 ≤ 0 then true
        else bulkLoopTame ll.1.toNat { c with multibulklen := ll.1.toNat, argv := [] } (newline + 2)
      | none => true
    | _ => true

theorem encodeCommand_ne_nil (args : List (List UInt8)) : encodeCommand args ≠ [] := nofun

theorem Current.ne_nil (hcurrent : Current args c own) : own ≠ [] := by
  rcases hcurrent with ⟨-, -, -, -, rfl⟩ | ⟨-, -, h⟩
  · exact encodeCommand_ne_nil args
  · exact h

theorem encodeArgs_eq_nil {left : List (List UInt8)} (h : encodeArgs left = []) : left = [] := by
  cases left with
  | nil => rfl
  | cons arg left => exact absurd h nofun

theorem readBulks_spec (hargs : Sendable args) (hreq : c.reqtype = .multibulk) (hmid : Mid args c own) (hpos : pos ≤ c.querybuf.length)
    (heq : c.querybuf.drop pos ++ fut = own ++ rest) (htame : bulkLoopTame c.multibulklen c pos = true) :
    (∃ c' own', readBulks c pos = (false, c') ∧ Current args c' own' ∧ c'.querybuf ++ fut = own' ++ rest ∧
      c'.querybuf.length < own'.length ∧ Same c c') ∨
    ∃ c', readBulks c pos = (true, c') ∧ c'.argv = args ∧ c'.querybuf ++ fut = rest ∧ Same c c' := by
  obtain ⟨c', pos', own', hloop, hmid', hpos', heq', hstop, hsame⟩ := bulkLoop_spec hargs.2.2 c.multibulklen rfl hmid hpos heq htame
  rw [readBulks, hloop]
  dsimp only
  by_cases hown : own' = []
  · -- the command is complete
    right
    rw [hown] at hmid' heq'
    rcases hmid' with ⟨-, left, hleft, hmulti, hnil⟩ | ⟨arg, left, -, -, -, hnil⟩
    · rw [encodeArgs_eq_nil hnil.symm] at hleft hmulti
      have hzero : decide (c'.multibulklen = 0) = true := decide_eq_true hmulti
      refine ⟨{ c' with querybuf := c'.querybuf.drop pos' }, by rw [hzero], ?_, heq', hsame.reqtype, hsame.blocked, hsame.closeAfterReply,
        hsame.errors, hsame.commands⟩
      rw [hleft, append_nil]
    · rw [append_assoc] at hnil
      exact absurd (append_eq_nil_iff.1 hnil.symm).2 nofun
  · left
    have hmulti : c'.multibulklen ≠ 0 := by
      rcases hmid' with ⟨-, left, -, hmulti, howns⟩ | ⟨arg, left, -, -, hmulti, -⟩
      · rw [hmulti]
        intro h0
        rw [length_eq_zero_iff.1 h0] at howns
        exact hown howns
      · omega
    refine ⟨{ c' with querybuf := c'.querybuf.drop pos' }, own', by rw [decide_eq_false hmulti],
      Or.inr ⟨hsame.reqtype.trans hreq, hmid', hown⟩, heq', ?_, hsame.reqtype, hsame.blocked, hsame.closeAfterReply, hsame.errors, hsame.commands⟩
    rw [length_drop]
    exact hstop.resolve_left hown

/-- **`processMultibulkBuffer`** takes the command off the buffer, or what there is of it. -/
theorem processMultibulkBuffer_spec (hargs : Sendable args) (hreq : c.reqtype = .multibulk) (hcurrent : Current args c own)
    (heq : c.querybuf ++ fut = own ++ rest) (htame : multibulkTame c = true) :
    (∃ c' own', processMultibulkBuffer c = (false, c') ∧ Current args c' own' ∧ c'.querybuf ++ fut = own' ++ rest ∧
      c'.querybuf.length < own'.length ∧ Same c c') ∨
    ∃ c', processMultibulkBuffer c = (true, c') ∧ c'.argv = args ∧ c'.querybuf ++ fut = rest ∧ Same c c' := by
  rcases hcurrent with ⟨hzero, hargv, hbulk, hreq', hown⟩ | ⟨-, hmid, hown⟩
  · -- the command has not been started
    have hcr : (13 : UInt8) ∉ (42 :: ll2string args.length) := by
      rw [mem_cons, not_or]
      exact ⟨by decide, ll2string_noCr _⟩
    have hnul : (0 : UInt8) ∉ (42 :: ll2string args.length) := by
      rw [mem_cons, not_or]
      exact ⟨by decide, ll2string_noNul _⟩
    have hline : c.querybuf.drop 0 ++ fut = (42 :: ll2string args.length) ++ crlf ++ (encodeArgs args ++ rest) := by
      rw [drop_zero, heq, hown, encodeCommand, append_assoc]
    have hlength : (encodeCommand args).length = (42 :: ll2string args.length).length + 2 + (encodeArgs args).length := by
      simp only [encodeCommand, crlf, length_append, length_cons, length_nil]
    have hcount : args.length ≤ 1024 * 1024 := hargs.2.1
    have hdigits : (42 :: ll2string args.length).length ≤ 8 := by
      have h1 := length_decimal 6 (n := args.length) (by omega)
      rw [length_cons, ll2string, if_neg (by omega), Int.natAbs_natCast]
      omega
    rw [multibulkTame, if_neg (not_not.2 hzero)] at htame
    rw [processMultibulkBuffer, if_neg (not_not.2 hzero)]
    have hidle : Current args c (encodeCommand args) := Or.inl ⟨hzero, hargv, hbulk, hreq', rfl⟩
    rcases readLine_line (Nat.zero_le _) hcr hnul hline with ⟨hshort, hread⟩ | ⟨hshort, hread⟩ | ⟨hlong, hread, htake, hdrop⟩
    · left
      rw [hread]
      have hsmall : ¬ c.querybuf.length > inlineMaxSize := by
        rw [inlineMaxSize]
        omega
      rw [if_neg hsmall]
      exact ⟨c, _, rfl, hidle, by rw [heq, hown], by omega, rfl, rfl, rfl, rfl, rfl⟩
    · left
      rw [hread]
      exact ⟨c, _, rfl, hidle, by rw [heq, hown], by omega, rfl, rfl, rfl, rfl, rfl⟩
    · rw [Nat.zero_add] at hread hdrop
      have hnumber : (c.querybuf.take (42 :: ll2string args.length).length).drop 1 = ll2string args.length := by
        rw [drop_zero] at htake
        rw [htake]
        rfl
      have hvalue : string2ll (ll2string args.length) = some ⟨args.length, by omega⟩ := string2ll_iff.2 rfl
      have hpositive : 0 < args.length := hargs.1
      rw [hread] at htame ⊢
      dsimp only at htame ⊢
      rw [hnumber, hvalue] at htame ⊢
      dsimp only at htame ⊢
      rw [if_neg (by omega), Int.toNat_natCast] at htame
      rw [if_neg (by omega), if_neg (by omega), Int.toNat_natCast]
      have hmid : Mid args { c with multibulklen := args.length, argv := [] } (encodeArgs args) :=
        Or.inl ⟨hbulk, args, rfl, rfl, rfl⟩
      rcases readBulks_spec hargs (c := { c with multibulklen := args.length, argv := [] }) hreq hmid (by dsimp only; omega) hdrop htame with
        ⟨c', own', h1, h2, h3, h4, h5⟩ | ⟨c', h1, h2, h3, h4⟩
      · exact Or.inl ⟨c', own', h1, h2, h3, h4, h5.reqtype, h5.blocked, h5.closeAfterReply, h5.errors, h5.commands⟩
      · exact Or.inr ⟨c', h1, h2, h3, h4.reqtype, h4.blocked, h4.closeAfterReply, h4.errors, h4.commands⟩
  · have hmulti : c.multibulklen ≠ 0 := by
      rcases hmid with ⟨-, left, -, hmulti, howns⟩ | ⟨arg, left, -, -, hmulti, -⟩
      · rw [hmulti]
        intro h0
        rw [length_eq_zero_iff.1 h0] at howns
        exact hown howns
      · omega
    rw [multibulkTame, if_pos hmulti] at htame
    rw [processMultibulkBuffer, if_pos hmulti]
    exact readBulks_spec hargs hreq hmid (Nat.zero_le _) heq htame

/-- Where the parser stands: at the end of the commands, or at one of them, with the bytes `fut` still to come. -/
def Reads (cmds : List (List (List UInt8))) (fut : List UInt8) (c : Client) : Prop :=
  (cmds = c.commands ∧ c.querybuf = [] ∧ fut = []) ∨
    ∃ args own todo, cmds = c.commands ++ args :: todo ∧ Current args c own ∧ c.querybuf ++ fut = own ++ encode todo

/-- The buffer holds less than the current command needs. -/
def Starved (cmds : List (List (List UInt8))) (fut : List UInt8) (c : Client) : Prop :=
  (cmds = c.commands ∧ c.querybuf = [] ∧ fut = []) ∨
    ∃ args own todo, cmds = c.commands ++ args :: todo ∧ Current args c own ∧ c.querybuf ++ fut = own ++ encode todo ∧
      c.querybuf.length < own.length

/-- After some events: the connection is closing, or the parser stands in the commands and, unless the client is blocked, needs
more bytes. -/
structure Served (cmds : List (List (List UInt8))) (fut : List UInt8) (c : Client) : Prop where
  errors : c.errors = []
  commands : c.commands <+: cmds
  reads : c.closeAfterReply = false → Reads cmds fut c
  starved : c.closeAfterReply = false → c.blocked = false → Starved cmds fut c

def requestTame (c : Client) : Bool := if c.reqtype = .inline then true else multibulkTame c

@[grind =] def inputTame (processCommand : List (List (List UInt8)) → Effect) : ℕ → Client → Bool
  | 0, _ => true
  | n + 1, c =>
    if c.querybuf = [] ∨ c.blocked = true ∨ c.closeAfterReply = true then true
    else
      requestTame (setReqtype c) &&
        (if (processRequest (setReqtype c)).1 = false then true
        else inputTame processCommand n (processArgv processCommand (processRequest (setReqtype c)).2))

theorem Reads.prefix (hreads : Reads cmds fut c) : c.commands <+: cmds := by
  rcases hreads with ⟨h, -, -⟩ | ⟨args, own, todo, h, -, -⟩
  · exact ⟨[], by rw [append_nil, h]⟩
  · exact ⟨args :: todo, h.symm⟩

theorem setReqtype_spec (hcurrent : Current args c own) (heq : c.querybuf ++ fut = own ++ rest) (hbuf : c.querybuf ≠ []) :
    (setReqtype c).reqtype = .multibulk ∧ Current args (setReqtype c) own ∧ (setReqtype c).querybuf = c.querybuf ∧
      (setReqtype c).blocked = c.blocked ∧ (setReqtype c).closeAfterReply = c.closeAfterReply ∧ (setReqtype c).errors = c.errors ∧
      (setReqtype c).commands = c.commands := by
  rw [setReqtype]
  by_cases hunknown : c.reqtype = .unknown
  · rw [if_pos hunknown]
    rcases hcurrent with ⟨hzero, hargv, hbulk, -, hown⟩ | ⟨hreq, -, -⟩
    · have hhead : c.querybuf.head? = some 42 := by
        cases hq : c.querybuf with
        | nil => exact absurd hq hbuf
        | cons b l =>
          rw [hq, hown] at heq
          exact congrArg some (List.cons.inj heq).1
      rw [if_pos hhead]
      exact ⟨rfl, Or.inl ⟨hzero, hargv, hbulk, nofun, hown⟩, rfl, rfl, rfl, rfl, rfl⟩
    · rw [hunknown] at hreq
      exact absurd hreq nofun
  · rw [if_neg hunknown]
    refine ⟨?_, hcurrent, rfl, rfl, rfl, rfl, rfl⟩
    rcases hcurrent with ⟨-, -, -, hreq, -⟩ | ⟨hreq, -, -⟩
    · cases h : c.reqtype with
      | unknown => exact absurd h hunknown
      | inline => exact absurd h hreq
      | multibulk => rfl
    · exact hreq

theorem reads_next (hzero : c.multibulklen = 0) (hargv : c.argv = []) (hbulk : c.bulklen = none) (hreq : c.reqtype ≠ .inline)
    (hcmds : cmds = c.commands ++ todo) (heq : c.querybuf ++ fut = encode todo) : Reads cmds fut c := by
  cases todo with
  | nil =>
    obtain ⟨h1, h2⟩ := append_eq_nil_iff.1 heq
    rw [append_nil] at hcmds
    exact Or.inl ⟨hcmds, h1, h2⟩
  | cons args todo =>
    exact Or.inr ⟨args, _, todo, hcmds, Or.inl ⟨hzero, hargv, hbulk, hreq, rfl⟩, heq⟩

theorem inputLoop_spec {processCommand : List (List (List UInt8)) → Effect} (hcmds : ∀ args ∈ cmds, Sendable args) : ∀ (n : ℕ) {c : Client},
    c.querybuf.length < n → c.errors = [] → c.closeAfterReply = false → Reads cmds fut c → inputTame processCommand n c = true →
    Served cmds fut (inputLoop processCommand n c) := by
  intro n
  induction n with
  | zero =>
    intro c hn
    exact absurd hn (Nat.not_lt_zero _)
  | succ n ih =>
    intro c hn herrors hclose hreads htame
    rw [inputLoop]
    rw [inputTame] at htame
    by_cases hstop : c.querybuf = [] ∨ c.blocked = true ∨ c.closeAfterReply = true
    · rw [if_pos hstop]
      refine ⟨herrors, hreads.prefix, fun _ => hreads, ?_⟩
      intro _ hblocked
      have hbuf : c.querybuf = [] := by
        rcases hstop with h | h | h
        · exact h
        · rw [hblocked] at h
          exact absurd h Bool.false_ne_true
        · rw [hclose] at h
          exact absurd h Bool.false_ne_true
      rcases hreads with h | ⟨args, own, todo, h1, h2, h3⟩
      · exact Or.inl h
      · refine Or.inr ⟨args, own, todo, h1, h2, h3, ?_⟩
        rw [hbuf]
        exact length_pos_of_ne_nil h2.ne_nil
    rw [if_neg hstop, Bool.and_eq_true] at htame
    rw [if_neg hstop]
    obtain ⟨htame, hrest⟩ := htame
    rw [not_or] at hstop
    obtain ⟨args, own, todo, hcut, hcurrent, heq⟩ := hreads.resolve_left fun h => hstop.1 h.2.1
    obtain ⟨hreq, hcurrent', hbuf', hblocked', hclose', herrors', hcommands'⟩ := setReqtype_spec hcurrent heq hstop.1
    have hmulti : processRequest (setReqtype c) = processMultibulkBuffer (setReqtype c) := by
      rw [processRequest, if_neg (by rw [hreq]; exact nofun)]
    rw [requestTame, if_neg (by rw [hreq]; exact nofun)] at htame
    have hargs : Sendable args := hcmds args (by rw [hcut]; exact mem_append_right _ mem_cons_self)
    rw [← hbuf'] at heq
    rcases processMultibulkBuffer_spec hargs hreq hcurrent' heq htame with ⟨c', own', hpart, h1, h2, h3, h4⟩ | ⟨c', hwhole, hargv, h2, h3⟩
    · -- the bytes end in the middle of the command
      rw [hmulti, hpart]
      have hcmds' : cmds = c'.commands ++ args :: todo := by
        rw [h4.commands, hcommands', hcut]
      have hwaits : Starved cmds fut c' := Or.inr ⟨args, own', todo, hcmds', h1, h2, h3⟩
      exact ⟨h4.errors.trans (herrors'.trans herrors), ⟨_, hcmds'.symm⟩, fun _ => Or.inr ⟨args, own', todo, hcmds', h1, h2⟩, fun _ _ => hwaits⟩
    · -- the command is complete
      rw [hmulti, hwhole] at hrest ⊢
      have hnonempty : c'.argv ≠ [] := by
        rw [hargv]
        exact ne_nil_of_length_pos hargs.1
      have hcommands : c'.commands ++ [c'.argv] = c.commands ++ [args] := by
        rw [h3.commands, hcommands', hargv]
      have hcmds' : cmds = (c.commands ++ [args]) ++ todo := by
        rw [hcut, append_assoc, singleton_append]
      have hshorter : c'.querybuf.length < n := by
        have h5 := congrArg List.length heq
        have h6 := congrArg List.length h2
        have h7 := length_pos_of_ne_nil hcurrent.ne_nil
        rw [hbuf'] at h5
        rw [length_append, length_append] at h5
        rw [length_append] at h6
        omega
      rw [processArgv, if_neg hnonempty] at hrest ⊢
      dsimp only at hrest ⊢
      rw [hcommands] at hrest ⊢
      cases heffect : processCommand (c.commands ++ [args]) with
      | executed =>
        rw [heffect] at hrest
        exact ih hshorter (h3.errors.trans (herrors'.trans herrors)) (h3.closeAfterReply.trans (hclose'.trans hclose))
          (reads_next rfl rfl rfl nofun hcmds' h2) hrest
      | blocks =>
        rw [heffect] at hrest
        exact ih hshorter (h3.errors.trans (herrors'.trans herrors)) (h3.closeAfterReply.trans (hclose'.trans hclose))
          (reads_next rfl rfl rfl nofun hcmds' h2) hrest
      | quits =>
        have hquit : ∀ (m : ℕ) (c : Client), c.closeAfterReply = true → inputLoop processCommand m c = c := by
          intro m c hc
          cases m with
          | zero => rfl
          | succ m => rw [inputLoop, if_pos (Or.inr (Or.inr hc))]
        rw [hquit n _ rfl]
        exact ⟨h3.errors.trans (herrors'.trans herrors), ⟨todo, hcmds'.symm⟩, fun h => absurd h Bool.noConfusion, fun h => absurd h Bool.noConfusion⟩

@[grind =] def Event.piece : Event → List UInt8
  | .readQueryFromClient piece => piece
  | .unblock => []

def received (es : List Event) : List UInt8 := es.flatMap Event.piece

/-- In one event, no request is read with a length missing and more than 64 KB in the buffer. -/
def stepTame (processCommand : List (List (List UInt8)) → Effect) (c : Client) : Event → Bool
  | .readQueryFromClient piece => inputTame processCommand ((c.querybuf ++ piece).length + 1) { c with querybuf := c.querybuf ++ piece }
  | .unblock => inputTame processCommand (c.querybuf.length + 1) { c with blocked := false }

@[grind =] def runTame (processCommand : List (List (List UInt8)) → Effect) : Client → List Event → Bool
  | _, [] => true
  | c, e :: es => stepTame processCommand c e && ((step processCommand c e).map fun c => runTame processCommand c es).getD true

variable {processCommand : List (List (List UInt8)) → Effect}

theorem processInputBuffer_spec (hcmds : ∀ args ∈ cmds, Sendable args) (herrors : c.errors = []) (hfront : c.commands <+: cmds)
    (hreads : c.closeAfterReply = false → Reads cmds fut c) (htame : inputTame processCommand (c.querybuf.length + 1) c = true) :
    Served cmds fut (processInputBuffer processCommand c) := by
  rw [processInputBuffer]
  cases hclose : c.closeAfterReply with
  | true =>
    rw [inputLoop, if_pos (Or.inr (Or.inr hclose))]
    exact ⟨herrors, hfront, hreads, fun h => by rw [hclose] at h; exact absurd h Bool.noConfusion⟩
  | false => exact inputLoop_spec hcmds _ (Nat.lt_succ_self _) herrors hclose (hreads hclose) htame

theorem step_served {e : Event} (hcmds : ∀ args ∈ cmds, Sendable args) (hserved : Served cmds (e.piece ++ fut) c)
    (hstep : step processCommand c e = some c') (htame : stepTame processCommand c e = true) : Served cmds fut c' := by
  cases e with
  | readQueryFromClient piece =>
    rw [step] at hstep
    by_cases hlong : (c.querybuf ++ piece).length > maxQuerybufLen
    · rw [if_pos hlong] at hstep
      cases hstep
    rw [if_neg hlong] at hstep
    obtain rfl := Option.some.inj hstep
    refine processInputBuffer_spec hcmds hserved.errors hserved.commands ?_ htame
    intro hclose
    rcases hserved.reads hclose with ⟨h1, h2, h3⟩ | ⟨args, own, todo, h1, h2, h3⟩
    · obtain ⟨hpiece, hfut⟩ := append_eq_nil_iff.1 h3
      exact Or.inl ⟨h1, append_eq_nil_iff.2 ⟨h2, hpiece⟩, hfut⟩
    · exact Or.inr ⟨args, own, todo, h1, h2, (append_assoc _ _ _).trans h3⟩
  | unblock =>
    obtain rfl := Option.some.inj hstep
    exact processInputBuffer_spec hcmds hserved.errors hserved.commands hserved.reads htame

theorem served_run (hcmds : ∀ args ∈ cmds, Sendable args) : ∀ {es : List Event} {c : Client}, Served cmds (received es ++ fut) c →
    run processCommand c es = some c' → runTame processCommand c es = true → Served cmds fut c' := by
  intro es
  induction es with
  | nil =>
    intro c hserved hrun _
    obtain rfl := Option.some.inj hrun
    exact hserved
  | cons e es ih =>
    intro c hserved hrun htame
    obtain ⟨c₁, hstep, hrun⟩ := bind_eq_some_iff.1 hrun
    rw [runTame, Bool.and_eq_true, hstep] at htame
    rw [received, flatMap_cons, append_assoc] at hserved
    exact ih (step_served hcmds hserved hstep htame.1) hrun htame.2

theorem createClient_served (cmds : List (List (List UInt8))) : Served cmds (encode cmds) createClient := by
  have hreads : Reads cmds (encode cmds) createClient := reads_next rfl rfl rfl nofun rfl rfl
  refine ⟨rfl, nil_prefix, fun _ => hreads, fun _ _ => ?_⟩
  rcases hreads with h | ⟨args, own, todo, h1, h2, h3⟩
  · exact Or.inl h
  · exact Or.inr ⟨args, own, todo, h1, h2, h3, length_pos_of_ne_nil h2.ne_nil⟩

/-- A client that needs more bytes has got every command whose bytes are there. -/
theorem Starved.complete {recv : List UInt8} (hstarved : Starved cmds fut c) (hrecv : recv ++ fut = encode cmds) {k : ℕ} (hk : k ≤ cmds.length)
    (hlen : (encode (cmds.take k)).length ≤ recv.length) : k ≤ c.commands.length := by
  rcases hstarved with ⟨h, -, -⟩ | ⟨args, own, todo, h1, h2, h3, h4⟩
  · rwa [← h]
  · by_contra hlt
    have hcut : cmds.take k = c.commands ++ args :: todo.take (k - c.commands.length - 1) := by
      obtain ⟨j, hj⟩ : ∃ j, k = c.commands.length + (j + 1) := ⟨k - c.commands.length - 1, by omega⟩
      rw [h1, hj, take_length_add_append, take_succ_cons]
      simp
    have h5 := congrArg List.length hrecv
    have h6 := congrArg List.length h3
    rw [hcut, encode_append, encode_cons] at hlen
    rw [h1, encode_append, encode_cons] at h5
    simp only [length_append] at hlen h5 h6
    omega

theorem query_run (hcmds : ∀ args ∈ cmds, Sendable args) (es : List Event) (hsent : received es <+: encode cmds)
    (hrun : run processCommand createClient es = some c) (htame : runTame processCommand createClient es = true) :
    c.errors = [] ∧ c.commands <+: cmds ∧
      (c.closeAfterReply = false → c.blocked = false → ∀ k ≤ cmds.length, (encode (cmds.take k)).length ≤ (received es).length →
        k ≤ c.commands.length) := by
  obtain ⟨fut, hfut⟩ := hsent
  have hserved := createClient_served cmds
  rw [← hfut] at hserved
  obtain ⟨h1, h2, -, h4⟩ := served_run hcmds hserved hrun htame
  exact ⟨h1, h2, fun hclose hblocked k hk hlen => (h4 hclose hblocked).complete hfut hk hlen⟩

def plainEvents : List Event :=
  [.readQueryFromClient [42, 50, 13, 10, 36, 51, 13], .readQueryFromClient [10, 71, 69, 84, 13, 10, 36, 49, 13, 10, 107, 13, 10, 42],
    .readQueryFromClient [49, 13, 10], .unblock, .readQueryFromClient [36, 49, 13, 10, 80, 13, 10]]

/-- The commands `GET k` and `P`. -/
def plainCommands : List (List (List UInt8)) := [[[71, 69, 84], [107]], [[80]]]

def firstBlocks (commands : List (List (List UInt8))) : Effect := if commands.length = 1 then .blocks else .executed

instance : DecidablePred Sendable := fun args => inferInstanceAs (Decidable (0 < args.length ∧ _ ∧ _))

theorem plainEvents_run : (run firstBlocks createClient plainEvents).isSome = true := by decide

theorem query_run_plain : ((run firstBlocks createClient plainEvents).get plainEvents_run).errors = [] ∧
      ((run firstBlocks createClient plainEvents).get plainEvents_run).commands <+: plainCommands ∧
      (((run firstBlocks createClient plainEvents).get plainEvents_run).closeAfterReply = false →
        ((run firstBlocks createClient plainEvents).get plainEvents_run).blocked = false →
        ∀ k ≤ plainCommands.length, (encode (plainCommands.take k)).length ≤ (received plainEvents).length →
          k ≤ ((run firstBlocks createClient plainEvents).get plainEvents_run).commands.length) :=
  query_run (by decide) plainEvents (by decide) (some_get _).symm (by decide)

theorem read_blocked {piece : List UInt8} (hblocked : c.blocked = true) (hlen : (c.querybuf ++ piece).length ≤ maxQuerybufLen) :
    step processCommand c (.readQueryFromClient piece) = some { c with querybuf := c.querybuf ++ piece } := by
  rw [step, if_neg (not_lt.2 hlen), processInputBuffer, inputLoop, if_pos (Or.inr (Or.inl hblocked))]

theorem run_blocked {q piece : List UInt8} {done : List (List (List UInt8))} {es : List Event} (hlen : (q ++ piece).length ≤ maxQuerybufLen) :
    run processCommand ⟨q, .unknown, [], 0, none, true, false, [], done⟩ (.readQueryFromClient piece :: es) =
      run processCommand ⟨q ++ piece, .unknown, [], 0, none, true, false, [], done⟩ es := by
  rw [run, read_blocked rfl hlen, bind_some]

def backlogBlock : List UInt8 := List.replicate 14000 97

def backlogArg : List UInt8 := backlogBlock ++ (backlogBlock ++ (backlogBlock ++ (backlogBlock ++ backlogBlock)))

def backlogCommands : List (List (List UInt8)) := [[[66]], [backlogArg, [120]]]

def backlogEvents : List Event :=
  [.readQueryFromClient [42, 49, 13, 10, 36, 49, 13, 10, 66, 13, 10],
    .readQueryFromClient ([42, 50, 13, 10, 36, 55, 48, 48, 48, 48, 13, 10] ++ backlogBlock), .readQueryFromClient backlogBlock,
    .readQueryFromClient backlogBlock, .readQueryFromClient backlogBlock, .readQueryFromClient (backlogBlock ++ [13, 10, 36]), .unblock]

theorem length_backlogArg : backlogArg.length = 70000 := by
  simp only [backlogArg, backlogBlock, length_append, length_replicate]

/-- The buffer with the argument of 70000 bytes and one byte more of the next length raises the error. -/
theorem processMultibulkBuffer_backlog {arg : List UInt8} (harg : arg.length = 70000) {c : Client} (hzero : c.multibulklen = 0)
    (hbulk : c.bulklen = none)
    (hbuf : c.querybuf = 42 :: 50 :: 13 :: 10 :: 36 :: 55 :: 48 :: 48 :: 48 :: 48 :: 13 :: 10 :: (arg ++ [13, 10, 36])) :
    (processMultibulkBuffer c).1 = false ∧ (processMultibulkBuffer c).2.errors = c.errors ++ ["Protocol error: too big bulk count string"] := by
  -- the count and the first length are read
  have hcount : readLine c.querybuf 0 = .whole 2 := by
    rw [hbuf, readLine, drop_zero]
    simp [strchr]
  have hlength : readLine c.querybuf 4 = .whole 10 := by
    rw [hbuf, readLine]
    simp [strchr]
  have hfront : c.querybuf.drop 12 = arg ++ [13, 10, 36] := by
    rw [hbuf]
    rfl
  have hall : (c.querybuf.drop 12).length = 70003 := by
    rw [hfront, length_append, harg]
    rfl
  rw [processMultibulkBuffer, if_neg (not_not.2 hzero), hcount]
  dsimp only
  have htwo : string2ll ((c.querybuf.take 2).drop 1) = some ⟨2, by decide⟩ := by
    rw [hbuf]
    exact string2ll_iff.2 rfl
  rw [htwo]
  dsimp only
  rw [if_neg (by decide), if_neg (by decide), readBulks]
  have hdollar : c.querybuf[4]? = some 36 := by
    rw [hbuf]
    rfl
  have hdigits : string2ll ((c.querybuf.take 10).drop 5) = some ⟨70000, by decide⟩ := by
    rw [hbuf]
    exact string2ll_iff.2 rfl
  rw [show Int.toNat 2 = 0 + 1 + 1 from rfl, bulkLoop, readBulkLength, if_neg (not_not.2 hbulk)]
  dsimp only
  rw [hlength]
  dsimp only
  rw [if_neg (not_not.2 hdollar), hdigits]
  dsimp only
  rw [if_neg (by decide), if_pos (by decide)]
  dsimp only
  -- the argument is copied, and stays in the buffer
  rw [getD_some, readBulk]
  rw [hall, if_neg (by decide), if_neg (by decide)]
  dsimp only
  -- the next length is missing, and the buffer is long
  rw [bulkLoop, readBulkLength, if_neg (by simp)]
  have hmissing : readLine (c.querybuf.drop 12) (0 + (Int.toNat 70000 + 2)) = .missing := by
    have hrest : (c.querybuf.drop 12).drop (0 + (Int.toNat 70000 + 2)) = [36] := by
      rw [hfront, show 0 + (Int.toNat 70000 + 2) = arg.length + 2 by rw [harg]; rfl, drop_append]
      simp
    rw [readLine, hrest]
    rfl
  rw [hmissing]
  dsimp only
  rw [hall, if_pos (by decide)]
  exact ⟨rfl, rfl⟩

theorem processInputBuffer_backlog {arg : List UInt8} (harg : arg.length = 70000) :
    (processInputBuffer firstBlocks ⟨42 :: 50 :: 13 :: 10 :: 36 :: 55 :: 48 :: 48 :: 48 :: 48 :: 13 :: 10 :: (arg ++ [13, 10, 36]),
      .unknown, [], 0, none, false, false, [], [[[66]]]⟩).errors ≠ [] := by
  rw [processInputBuffer, inputLoop, if_neg (by simp)]
  have herror := processMultibulkBuffer_backlog harg (c := ⟨42 :: 50 :: 13 :: 10 :: 36 :: 55 :: 48 :: 48 :: 48 :: 48 :: 13 :: 10 ::
    (arg ++ [13, 10, 36]), .multibulk, [], 0, none, false, false, [], [[[66]]]⟩) rfl rfl rfl
  have hrequest : ∀ l : List UInt8, processRequest (setReqtype ⟨42 :: l, .unknown, [], 0, none, false, false, [], [[[66]]]⟩) =
      processMultibulkBuffer ⟨42 :: l, .multibulk, [], 0, none, false, false, [], [[[66]]]⟩ := fun _ => rfl
  rw [hrequest, if_pos herror.1, herror.2]
  exact cons_ne_nil _ _

theorem run_backlog {block : List UInt8} (hlen : block.length = 14000) :
    run firstBlocks createClient [.readQueryFromClient [42, 49, 13, 10, 36, 49, 13, 10, 66, 13, 10],
      .readQueryFromClient ([42, 50, 13, 10, 36, 55, 48, 48, 48, 48, 13, 10] ++ block), .readQueryFromClient block, .readQueryFromClient block,
      .readQueryFromClient block, .readQueryFromClient (block ++ [13, 10, 36]), .unblock] =
    some (processInputBuffer firstBlocks ⟨42 :: 50 :: 13 :: 10 :: 36 :: 55 :: 48 :: 48 :: 48 :: 48 :: 13 :: 10 ::
      ((block ++ (block ++ (block ++ (block ++ block)))) ++ [13, 10, 36]), .unknown, [], 0, none, false, false, [], [[[66]]]⟩) := by
  have hblocks : step firstBlocks createClient (.readQueryFromClient [42, 49, 13, 10, 36, 49, 13, 10, 66, 13, 10]) =
      some ⟨[], .unknown, [], 0, none, true, false, [], [[[66]]]⟩ := by decide
  rw [run, hblocks, bind_some, run_blocked, run_blocked, run_blocked, run_blocked, run_blocked, run, step, bind_some, run]
  · simp only [nil_append, append_assoc, cons_append]
  all_goals
    simp only [length_append, length_cons, length_nil, hlen, maxQuerybufLen]
    omega

/-- **Data that waits for a blocked client raises an error**, though every byte is as it should be. -/
theorem query_run_backlog : ∃ c, (∀ args ∈ backlogCommands, Sendable args) ∧ received backlogEvents <+: encode backlogCommands ∧
    run firstBlocks createClient backlogEvents = some c ∧ c.errors ≠ [] := by
  refine ⟨_, ?_, ?_, run_backlog length_replicate, ?_⟩
  · intro args hargs
    have hlong := length_backlogArg
    simp only [backlogCommands, mem_cons, not_mem_nil, or_false] at hargs
    rcases hargs with rfl | rfl
    · decide
    · refine ⟨by simp, by simp, ?_⟩
      intro arg harg
      simp only [mem_cons, not_mem_nil, or_false] at harg
      rcases harg with rfl | rfl
      · omega
      · decide
  · have hfirst : encodeCommand [[66]] = [42, 49, 13, 10, 36, 49, 13, 10, 66, 13, 10] := by decide
    have hlast : encodeArg [120] = [36, 49, 13, 10, 120, 13, 10] := by decide
    have hdigits : ll2string ((70000 : ℕ) : ℤ) = [55, 48, 48, 48, 48] := by decide
    have htwo : ll2string ((2 : ℕ) : ℤ) = [50] := by decide
    have harg : encodeArg backlogArg = 36 :: 55 :: 48 :: 48 :: 48 :: 48 :: 13 :: 10 :: (backlogArg ++ [13, 10]) := by
      rw [encodeArg, length_backlogArg, hdigits]
      rfl
    have hcommand : encodeCommand [backlogArg, [120]] = (42 :: ll2string ((2 : ℕ) : ℤ)) ++ crlf ++ (encodeArg backlogArg ++ (encodeArg [120] ++ [])) := rfl
    refine ⟨[49, 13, 10, 120, 13, 10], ?_⟩
    rw [backlogCommands, encode_cons, encode_cons, hfirst, hcommand, htwo, harg, hlast, received, backlogEvents, backlogArg]
    generalize backlogBlock = block
    simp only [flatMap_cons, flatMap_nil, Event.piece, encode, crlf, append_assoc, cons_append, nil_append, append_nil]
  · exact processInputBuffer_backlog length_backlogArg

end KVStores.Redis.Query
