import KVStores.Redis.Aof

/-!
# The log rebuilds the dataset

Commands, flushes, rewrites that end in any way, and the log being switched on and off, in any order.

* `Laws`: what the commands are assumed to do: one that is loaded in its logged form does what it did when it was called.
* `aof_run`: whenever the log is on, the append only file and the buffer behind it load as the dataset.
-/

namespace KVStores.Redis.Aof

open List Option Function

open Protocol

variable {Data : Type} {cmds : Commands Data} {empty : Data} {s s' : Server Data}

theorem rewriteBufferAppend_room : ∀ (n : ℕ) {blocks : List (List UInt8)} {block t : List UInt8}, block.length < aofRwBufBlockSize → t.length ≤ n →
    (aofRewriteBufferAppend n (blocks ++ [block]) t).flatten = (blocks ++ [block]).flatten ++ t := by
  intro n
  induction n with
  | zero =>
    intro blocks block t _ ht
    rw [length_eq_zero_iff.1 (Nat.le_zero.1 ht), aofRewriteBufferAppend, append_nil]
  | succ n ih =>
    intro blocks block t hroom ht
    rw [aofRewriteBufferAppend]
    by_cases hnil : t = []
    · rw [if_pos hnil, hnil, append_nil]
    rw [if_neg hnil, List.getLast?_concat]
    dsimp only
    rw [dropLast_concat]
    by_cases hrest : t.drop (min (aofRwBufBlockSize - block.length) t.length) = []
    · rw [if_pos hrest]
      have hall := take_append_drop (min (aofRwBufBlockSize - block.length) t.length) t
      rw [hrest, append_nil] at hall
      rw [hall]
      simp
    · rw [if_neg hrest, ih (by decide) (by rw [length_drop]; omega)]
      simp only [flatten_append, flatten_nil, flatten_cons, append_nil, append_assoc, take_append_drop]

theorem rewriteBufferAppend_flatten (blocks : List (List UInt8)) (t : List UInt8) :
    (aofRewriteBufferAppend (t.length + 2) blocks t).flatten = blocks.flatten ++ t := by
  by_cases hnil : t = []
  · rw [aofRewriteBufferAppend, if_pos hnil, hnil, append_nil]
  rcases eq_nil_or_concat blocks with rfl | ⟨blocks, block, rfl⟩
  · rw [aofRewriteBufferAppend, if_neg hnil]
    have hfirst := @rewriteBufferAppend_room (t.length + 1) [] [] t (by decide) (Nat.le_succ _)
    exact hfirst
  · rw [concat_eq_append]
    by_cases hroom : block.length < aofRwBufBlockSize
    · exact rewriteBufferAppend_room _ hroom (by omega)
    · -- the last block is full
      have hfull : min (aofRwBufBlockSize - block.length) t.length = 0 := by omega
      rw [aofRewriteBufferAppend, if_neg hnil, List.getLast?_concat]
      dsimp only
      rw [hfull, drop_zero, if_neg hnil, dropLast_concat, take_zero, append_nil,
        rewriteBufferAppend_room (t.length + 1) (by decide) (Nat.le_succ _)]
      simp

theorem rewriteBufferWrite_some {ok : ℕ → Bool} : ∀ {blocks : List (List UInt8)} {i : ℕ} {base file : List UInt8},
    aofRewriteBufferWrite ok i blocks base = some file → file = base ++ blocks.flatten := by
  intro blocks
  induction blocks with
  | nil =>
    intro i base file h
    obtain rfl := Option.some.inj h
    rw [flatten_nil, append_nil]
  | cons block blocks ih =>
    intro i base file h
    rw [aofRewriteBufferWrite] at h
    by_cases hnil : block = []
    · rw [if_pos hnil] at h
      rw [ih h, hnil, flatten_cons, nil_append]
    rw [if_neg hnil] at h
    by_cases hok : ok i = false
    · rw [if_pos hok] at h
      exact absurd h nofun
    · rw [if_neg hok] at h
      rw [ih h, flatten_cons, append_assoc]

@[grind =] def execAll (exec : List (List UInt8) → ℕ × Data → Option (ℕ × Data)) : List (List (List UInt8)) → ℕ × Data → Option (ℕ × Data)
  | [], c => some c
  | argv :: rest, c => (exec argv c).bind (execAll exec rest)

/-- What is assumed of the commands: `SELECT` selects a database, and a command that changed the dataset of a database, with the
arguments that a client can send, does the same in its logged form. The clock does not go on between a command and its being logged. -/
structure Laws (dbnum : ℕ) (cmds : Commands Data) : Prop where
  dbnum_int : dbnum < 2 ^ 31
  select : ∀ n < dbnum, ∀ c, cmds.exec [selectName, decimal n] c = some (n, c.2)
  range : ∀ {proc now argv n d d'}, cmds.live proc now argv n d = some d' → n < dbnum
  loggable : ∀ {proc now argv n d d'}, cmds.live proc now argv n d = some d' → ∀ c ∈ loggedCommands proc now argv, Loggable c
  logged : ∀ {proc now argv n d d'}, cmds.live proc now argv n d = some d' →
    execAll cmds.exec (loggedCommands proc now argv) (n, d) = some (n, d')

variable {exec : List (List UInt8) → ℕ × Data → Option (ℕ × Data)}

theorem load_nil (c : ℕ × Data) : loadAppendOnlyFile exec [] c = some c := rfl

theorem load_encode : ∀ {l : List (List (List UInt8))} (c : ℕ × Data),
    (∀ argv ∈ l, Loggable argv) → loadAppendOnlyFile exec (encode l) c = execAll exec l c := by
  intro l
  induction l with
  | nil =>
    intro c _
    rfl
  | cons argv l ih =>
    intro c hall
    rw [encode_cons, load_command (hall argv mem_cons_self), execAll]
    congr 1
    funext c'
    exact ih c' fun a ha => hall a (mem_cons_of_mem _ ha)

variable {proc : Proc} {now : ℤ} {argv : List (List UInt8)} {n : ℕ} {d : Data}

/-- **What is logged for a command**, loaded when the right database is selected or none is known to be. -/
theorem load_logged {db : ℕ} {d' : Data} (hn : n < 2 ^ 31) (hselect : ∀ c, exec [selectName, decimal n] c = some (n, c.2))
    (hloggable : ∀ c ∈ loggedCommands proc now argv, Loggable c) (hexec : execAll exec (loggedCommands proc now argv) (n, d) = some (n, d'))
    (hdb : s.aofSelectedDb = some n → db = n) :
    loadAppendOnlyFile exec (selectDb s n ++ encode (loggedCommands proc now argv)) (db, d) = some (n, d') := by
  have hload : loadAppendOnlyFile exec (encode (loggedCommands proc now argv)) (n, d) = some (n, d') := by
    rw [load_encode _ hloggable, hexec]
  rw [selectDb]
  by_cases hsel : s.aofSelectedDb ≠ some n
  · have hcommand : Loggable [selectName, decimal n] := by
      refine ⟨by simp, by simp, ?_⟩
      intro a ha
      simp only [mem_cons, not_mem_nil, or_false] at ha
      rcases ha with rfl | rfl
      · decide
      · have hlen := length_decimal 9 (n := n) (by omega)
        omega
    rw [if_pos hsel, load_command hcommand, hselect, bind_some]
    exact hload
  · rw [if_neg hsel, nil_append, hdb (not_ne_iff.1 hsel)]
    exact hload

inductive Event
  | call (proc : Proc) (now : ℤ) (dictid : ℕ) (argv : List (List UInt8))
  | flush (postponed written : Bool)
  | bgrewriteaof (forked : Bool)
  /-- `CONFIG SET appendonly yes`. -/
  | appendonlyYes (opened forked : Bool)
  /-- `CONFIG SET appendonly no`. -/
  | appendonlyNo (written : Bool)
  /-- `serverCron` finds that a child has ended. -/
  | childDone (done : Done)

/-- One event; `none` when the server exits. -/
@[grind =] def step (cmds : Commands Data) (s : Server Data) : Event → Option (Server Data)
  | .call proc now dictid argv => some (call cmds s proc now dictid argv)
  | .flush postponed written => flushAppendOnlyFile s postponed written
  | .bgrewriteaof forked => some (rewriteAppendOnlyFileBackground s forked).1
  | .appendonlyYes opened forked => some (if s.aofState = .off then startAppendOnly s opened forked else s)
  | .appendonlyNo written => if s.aofState = .off then some s else stopAppendOnly s written
  | .childDone done => some (if s.child.isSome = true then backgroundRewriteDoneHandler s done else s)

@[grind =] def run (cmds : Commands Data) : List Event → Server Data → Option (Server Data)
  | [], s => some s
  | e :: es, s => (step cmds s e).bind (run cmds es)

/-- The file of a child that ends with success loads as the dataset that it was forked with. -/
def Rebuilds (cmds : Commands Data) (empty : Data) (s : Server Data) (e : Event) : Prop :=
  ∀ base ok renamed snap, e = .childDone (.success base ok renamed) → s.child = some snap →
    ∃ db, loadAppendOnlyFile cmds.exec base (0, empty) = some (db, snap)

@[grind =] def ChildrenRebuild (cmds : Commands Data) (empty : Data) : List Event → Server Data → Prop
  | [], _ => True
  | e :: es, s => Rebuilds cmds empty s e ∧ ∀ s', step cmds s e = some s' → ChildrenRebuild cmds empty es s'

/-- The append only file, and what will be written behind it. -/
def log (s : Server Data) : List UInt8 := (s.aofFile.map s.file).getD [] ++ s.aofBuf

/-- The bytes load as the dataset from `c`, and leave the database selected that the next command would be logged for without a
`SELECT`. -/
def LoadsFrom (cmds : Commands Data) (s : Server Data) (bytes : List UInt8) (c : ℕ × Data) : Prop :=
  ∃ db, loadAppendOnlyFile cmds.exec bytes c = some (db, s.data) ∧ ∀ n, s.aofSelectedDb = some n → db = n

structure Inv (cmds : Commands Data) (empty : Data) (s : Server Data) : Prop where
  fresh : ∀ f, s.aofFile = some f → f < s.nextFile
  opened : s.aofState ≠ .off → ∃ f, s.aofFile = some f ∧ s.aofFd = some ⟨f, false⟩
  noChild : s.child = none → s.aofRewriteBufBlocks = []
  log : s.aofState = .on → LoadsFrom cmds s (log s) (0, empty)
  /-- The child's file will leave some database selected. -/
  child : s.aofState ≠ .off → ∀ snap, s.child = some snap → ∀ db, LoadsFrom cmds s s.aofRewriteBufBlocks.flatten (db, snap)

variable {dbnum : ℕ}

theorem LoadsFrom.append {bytes t : List UInt8} {c : ℕ × Data} {n : ℕ} {d : Data} (hloads : LoadsFrom cmds s bytes c)
    (ht : ∀ db, (∀ n, s.aofSelectedDb = some n → db = n) → loadAppendOnlyFile cmds.exec t (db, s.data) = some (n, d)) :
    loadAppendOnlyFile cmds.exec (bytes ++ t) c = some (n, d) := by
  obtain ⟨db, hload, hsel⟩ := hloads
  rw [load_append _ hload]
  exact ht db hsel

theorem Inv.of_off (hoff : s.aofState = .off) (hfresh : ∀ f, s.aofFile = some f → f < s.nextFile)
    (hblocks : s.child = none → s.aofRewriteBufBlocks = []) : Inv cmds empty s :=
  ⟨hfresh, fun h => absurd hoff h, hblocks, fun hon => absurd (hoff.symm.trans hon) nofun, fun h => absurd hoff h⟩

/-- **A command** goes to the log and to the rewrite buffer alike. -/
theorem Inv.call (hlaws : Laws dbnum cmds) (hinv : Inv cmds empty s) (proc : Proc) (now : ℤ) (n : ℕ) (argv : List (List UInt8)) :
    Inv cmds empty (call cmds s proc now n argv) := by
  rw [Aof.call]
  cases hlive : cmds.live proc now argv n s.data with
  | none => exact hinv
  | some d =>
    dsimp only
    by_cases hoff : s.aofState = .off
    · rw [if_neg (not_not.2 hoff)]
      exact .of_off hoff hinv.fresh hinv.noChild
    rw [if_pos hoff]
    have hbytes : ∀ bytes c, LoadsFrom cmds s bytes c →
        loadAppendOnlyFile cmds.exec (bytes ++ (selectDb s n ++ encode (loggedCommands proc now argv))) c = some (n, d) := by
      intro bytes c hloads
      refine hloads.append fun db hsel => ?_
      have hn := hlaws.range hlive
      exact load_logged (Nat.lt_trans hn hlaws.dbnum_int) (hlaws.select n hn) (hlaws.loggable hlive) (hlaws.logged hlive) (hsel n)
    refine ⟨hinv.fresh, hinv.opened, ?_, ?_, ?_⟩
    · intro hchild
      have hnone : s.child = none := hchild
      dsimp only [feedAppendOnlyFile]
      rw [hnone, if_neg (by simp)]
      exact hinv.noChild hnone
    · intro hon
      have hon : s.aofState = .on := hon
      refine ⟨n, ?_, fun m hm => Option.some.inj hm⟩
      have hload := hbytes _ _ (hinv.log hon)
      rw [Aof.log, append_assoc] at hload
      dsimp only [Aof.log, feedAppendOnlyFile]
      rw [if_pos hon]
      exact hload
    · intro _ snap hsnap db
      have hsnap : s.child = some snap := hsnap
      refine ⟨n, ?_, fun m hm => Option.some.inj hm⟩
      have hload := hbytes _ _ (hinv.child hoff snap hsnap db)
      dsimp only [feedAppendOnlyFile]
      rw [if_pos (by rw [hsnap]; rfl), rewriteBufferAppend_flatten]
      exact hload

/-- **A flush** moves bytes from the buffer to the end of the file. -/
theorem Inv.flush (hinv : Inv cmds empty s) {postponed written : Bool} (hflush : flushAppendOnlyFile s postponed written = some s') :
    Inv cmds empty s' ∧ s'.aofState = s.aofState ∧ s'.child = s.child := by
  rw [flushAppendOnlyFile] at hflush
  by_cases hnothing : s.aofBuf = [] ∨ postponed = true
  · rw [if_pos hnothing] at hflush
    obtain rfl := Option.some.inj hflush
    exact ⟨hinv, rfl, rfl⟩
  rw [if_neg hnothing] at hflush
  by_cases hwritten : written = false
  · rw [if_pos hwritten] at hflush
    exact absurd hflush nofun
  rw [if_neg hwritten] at hflush
  obtain ⟨s₁, hwrite, rfl⟩ := map_eq_some_iff.1 hflush
  obtain ⟨fd, hfd, hwrite⟩ := bind_eq_some_iff.1 hwrite
  by_cases hclosed : fd.closed = true
  · rw [if_pos hclosed] at hwrite
    exact absurd hwrite nofun
  rw [if_neg hclosed] at hwrite
  obtain rfl := Option.some.inj hwrite
  refine ⟨⟨hinv.fresh, hinv.opened, hinv.noChild, ?_, hinv.child⟩, rfl, rfl⟩
  intro hon
  obtain ⟨f, hfile, hfd'⟩ := hinv.opened (by rw [hon]; exact nofun)
  obtain rfl := Option.some.inj (hfd.symm.trans hfd')
  obtain ⟨db, hload, hsel⟩ := hinv.log hon
  refine ⟨db, ?_, hsel⟩
  rw [Aof.log, hfile] at hload
  dsimp only [Aof.log]
  rw [hfile, append_nil, map_some, getD_some, update_self]
  exact hload

/-- **A rewrite starts**: the rewrite buffer is empty, and the next command comes with a `SELECT`. -/
theorem Inv.rewrite (hinv : Inv cmds empty s) (forked : Bool) : Inv cmds empty (rewriteAppendOnlyFileBackground s forked).1 := by
  rw [rewriteAppendOnlyFileBackground]
  by_cases hfail : s.child.isSome = true ∨ forked = false
  · rw [if_pos hfail]
    exact hinv
  rw [if_neg hfail]
  rw [not_or, isSome_iff_ne_none, not_not] at hfail
  refine ⟨hinv.fresh, hinv.opened, fun h => absurd h nofun, ?_, ?_⟩
  · intro hon
    obtain ⟨db, hload, -⟩ := hinv.log hon
    exact ⟨db, hload, nofun⟩
  · intro _ snap hsnap db
    obtain rfl : s.data = snap := Option.some.inj hsnap
    refine ⟨db, ?_, nofun⟩
    rw [hinv.noChild hfail.1]
    exact load_nil _

/-- **The log is switched off**, and a child that is running is killed. -/
theorem Inv.stop (hinv : Inv cmds empty s) {written : Bool} (hstop : stopAppendOnly s written = some s') : Inv cmds empty s' := by
  obtain ⟨s₁, hflush, rfl⟩ := map_eq_some_iff.1 hstop
  obtain ⟨hinv₁, -, -⟩ := hinv.flush hflush
  refine ⟨hinv₁.fresh, fun h => absurd rfl h, ?_, nofun, fun h => absurd rfl h⟩
  intro _
  by_cases hchild : s₁.child.isSome = true
  · rw [if_pos hchild]
  · rw [if_neg hchild]
    rw [isSome_iff_ne_none, not_not] at hchild
    exact hinv₁.noChild hchild

/-- **The log is switched on**: from then on it waits for a rewrite, if one could be started. -/
theorem Inv.start (hinv : Inv cmds empty s) (hoff : s.aofState = .off) (opened forked : Bool) :
    Inv cmds empty (startAppendOnly s opened forked) := by
  rw [startAppendOnly]
  by_cases hopened : opened = false
  · rw [if_pos hopened]
    exact .of_off hoff hinv.fresh hinv.noChild
  rw [if_neg hopened]
  -- the file is there now
  obtain ⟨f, hfile, hfd, hfresh, hsame⟩ : ∃ f, (openAof s).aofFile = some f ∧ (openAof s).aofFd = some ⟨f, false⟩ ∧ f < (openAof s).nextFile ∧
      (openAof s).aofState = s.aofState ∧ (openAof s).child = s.child ∧ (openAof s).aofRewriteBufBlocks = s.aofRewriteBufBlocks := by
    rw [openAof]
    cases hfile : s.aofFile with
    | some f => exact ⟨f, rfl, rfl, hinv.fresh f hfile, rfl, rfl, rfl⟩
    | none => exact ⟨s.nextFile, rfl, rfl, Nat.lt_succ_self _, rfl, rfl, rfl⟩
  have hfresh' : ∀ g, (openAof s).aofFile = some g → g < (openAof s).nextFile := by
    intro g hg
    obtain rfl := Option.some.inj (hfile.symm.trans hg)
    exact hfresh
  have hblocks : (openAof s).child = none → (openAof s).aofRewriteBufBlocks = [] := by
    intro hnone
    rw [hsame.2.2]
    exact hinv.noChild (hsame.2.1.symm.trans hnone)
  rw [rewriteAppendOnlyFileBackground]
  by_cases hfail : (openAof s).child.isSome = true ∨ forked = false
  · rw [if_pos hfail]
    dsimp only
    exact .of_off (hsame.1.trans hoff) hfresh' hblocks
  rw [if_neg hfail]
  dsimp only
  rw [if_neg (by simp)]
  rw [not_or, isSome_iff_ne_none, not_not] at hfail
  refine ⟨hfresh', fun _ => ⟨f, hfile, hfd⟩, fun h => absurd h nofun, nofun, ?_⟩
  intro _ snap hsnap db
  obtain rfl : (openAof s).data = snap := Option.some.inj hsnap
  refine ⟨db, ?_, nofun⟩
  rw [hblocks hfail.1]
  exact load_nil _

theorem Inv.cleanup (hinv : Inv cmds empty s) : Inv cmds empty (cleanup s) :=
  ⟨hinv.fresh, hinv.opened, fun _ => rfl, hinv.log, fun _ _ h => absurd h nofun⟩

/-- **A child has ended**: with success its file and the rewrite buffer become the log. -/
theorem Inv.done (hinv : Inv cmds empty s) {done : Done} (hchild : s.child.isSome = true) (hrebuilds : Rebuilds cmds empty s (.childDone done)) :
    Inv cmds empty (backgroundRewriteDoneHandler s done) := by
  cases done with
  | exitcode => exact hinv.cleanup
  | bysignal => exact hinv.cleanup
  | noFile => exact hinv.cleanup
  | success base ok renamed =>
    rw [backgroundRewriteDoneHandler]
    cases hfile : aofRewriteBufferWrite ok 0 s.aofRewriteBufBlocks base with
    | none => exact hinv.cleanup
    | some file =>
      dsimp only
      by_cases hrenamed : renamed = false
      · rw [if_pos hrenamed]
        exact hinv.cleanup
      rw [if_neg hrenamed]
      have hfresh : ∀ f, some s.nextFile = some f → f < s.nextFile + 1 := by
        intro f hf
        obtain rfl := Option.some.inj hf
        exact Nat.lt_succ_self _
      by_cases hoff : s.aofState = .off
      · have hstate : (switchAof s file).aofState = .off := by
          rw [switchAof]
          by_cases hfd : s.aofFd = none
          · rw [if_pos hfd]
            exact hoff
          · rw [if_neg hfd]
            exact hoff
        rw [if_neg (by rw [hstate]; exact nofun)]
        refine .of_off hstate ?_ fun _ => rfl
        rw [Aof.cleanup, switchAof]
        by_cases hfd : s.aofFd = none
        · rw [if_pos hfd]
          exact hfresh
        · rw [if_neg hfd]
          exact hfresh
      · -- the log is on, or will be
        obtain ⟨f, -, hfd⟩ := hinv.opened hoff
        obtain ⟨snap, hsnap⟩ := isSome_iff_exists.1 hchild
        obtain ⟨db, hload⟩ := hrebuilds base ok renamed snap rfl hsnap
        obtain ⟨db', hrest, -⟩ := hinv.child hoff snap hsnap db
        have hloads : loadAppendOnlyFile cmds.exec file (0, empty) = some (db', s.data) := by
          rw [rewriteBufferWrite_some hfile, load_append _ hload]
          exact hrest
        have hopened : s.aofFd ≠ none := by
          rw [hfd]
          exact nofun
        have hswitched : ∀ s' : Server Data, s'.aofFile = some s.nextFile → s'.nextFile = s.nextFile + 1 → s'.aofFd = some ⟨s.nextFile, false⟩ →
            s'.file = Function.update s.file s.nextFile file → s'.aofBuf = [] → s'.data = s.data → s'.aofSelectedDb = none →
            s'.aofRewriteBufBlocks = [] → s'.child = none → Inv cmds empty s' := by
          intro s' hfile' hnext hfd' hfiles hbuf hdata hsel hblocks hnone
          refine ⟨?_, fun _ => ⟨s.nextFile, hfile', hfd'⟩, fun _ => hblocks, fun _ => ⟨db', ?_, ?_⟩, ?_⟩
          · rw [hfile', hnext]
            exact hfresh
          · rw [Aof.log, hfile', hfiles, hbuf, hdata, map_some, getD_some, update_self, append_nil]
            exact hloads
          · rw [hsel]
            exact nofun
          · rw [hnone]
            exact nofun
        rw [switchAof, if_neg hopened]
        by_cases hwait : s.aofState = .waitRewrite
        · rw [if_pos hwait]
          exact hswitched _ rfl rfl rfl rfl rfl rfl rfl rfl rfl
        · rw [if_neg hwait]
          exact hswitched _ rfl rfl rfl rfl rfl rfl rfl rfl rfl

/-- **One event.** -/
theorem Inv.step (hlaws : Laws dbnum cmds) (hinv : Inv cmds empty s) {e : Event} (hrebuilds : Rebuilds cmds empty s e)
    (hstep : step cmds s e = some s') : Inv cmds empty s' := by
  cases e with
  | call proc now n argv =>
    obtain rfl := Option.some.inj hstep
    exact hinv.call hlaws proc now n argv
  | flush postponed written => exact (hinv.flush hstep).1
  | bgrewriteaof forked =>
    obtain rfl := Option.some.inj hstep
    exact hinv.rewrite forked
  | appendonlyYes opened forked =>
    obtain rfl := Option.some.inj hstep
    by_cases hoff : s.aofState = .off
    · rw [if_pos hoff]
      exact hinv.start hoff opened forked
    · rw [if_neg hoff]
      exact hinv
  | appendonlyNo written =>
    rw [Aof.step] at hstep
    by_cases hoff : s.aofState = .off
    · rw [if_pos hoff] at hstep
      obtain rfl := Option.some.inj hstep
      exact hinv
    · rw [if_neg hoff] at hstep
      exact hinv.stop hstep
  | childDone done =>
    obtain rfl := Option.some.inj hstep
    by_cases hchild : s.child.isSome = true
    · rw [if_pos hchild]
      exact hinv.done hchild hrebuilds
    · rw [if_neg hchild]
      exact hinv

/-- **A run.** -/
theorem Inv.run (hlaws : Laws dbnum cmds) : ∀ {es : List Event} {s : Server Data}, Inv cmds empty s → ChildrenRebuild cmds empty es s →
    run cmds es s = some s' → Inv cmds empty s' := by
  intro es
  induction es with
  | nil =>
    intro s hinv _ hrun
    obtain rfl := Option.some.inj hrun
    exact hinv
  | cons e es ih =>
    intro s hinv hchildren hrun
    obtain ⟨s₁, hstep, hrun⟩ := bind_eq_some_iff.1 hrun
    exact ih (hinv.step hlaws hchildren.1 hstep) (hchildren.2 s₁ hstep) hrun

/-- The server after it has started: with the log off, or with the log on, loaded, and opened. -/
structure Started (cmds : Commands Data) (empty : Data) (s : Server Data) : Prop where
  fresh : ∀ f, s.aofFile = some f → f < s.nextFile
  state : s.aofState = .off ∨
    s.aofState = .on ∧ (∃ f, s.aofFile = some f ∧ s.aofFd = some ⟨f, false⟩) ∧ ∃ db, loadAppendOnlyFile cmds.exec (log s) (0, empty) = some (db, s.data)
  selected : s.aofSelectedDb = none
  noChild : s.child = none
  noBlocks : s.aofRewriteBufBlocks = []

theorem Started.inv (hstarted : Started cmds empty s) : Inv cmds empty s := by
  rcases hstarted.state with hoff | ⟨hon, hopened, db, hload⟩
  · exact .of_off hoff hstarted.fresh fun _ => hstarted.noBlocks
  · refine ⟨hstarted.fresh, fun _ => hopened, fun _ => hstarted.noBlocks, ?_, ?_⟩
    · intro _
      refine ⟨db, hload, ?_⟩
      rw [hstarted.selected]
      exact nofun
    · intro _ snap hsnap
      rw [hstarted.noChild] at hsnap
      exact absurd hsnap nofun

/-- A store of strings, a pair of a key and a value for each `SET`, the last one first. -/
def storeCommands : Commands (List (ℕ × List UInt8 × List UInt8)) where
  live
    | .other, _, [name, key, value], n, d =>
      if name = setName ∧ n < 16 ∧ key.length < 2 ^ 63 ∧ value.length < 2 ^ 63 then some ((n, key, value) :: d) else none
    | _, _, _, _, _ => none
  exec
    | [name, key, value], (n, d) => if name = setName then some (n, (n, key, value) :: d) else none
    | [name, n], (_, d) => if name = selectName then some (decimalValue 0 n, d) else none
    | _, _ => none

theorem storeCommands_live {d d' : List (ℕ × List UInt8 × List UInt8)} (hlive : storeCommands.live proc now argv n d = some d') :
    ∃ key value, proc = .other ∧ argv = [setName, key, value] ∧ n < 16 ∧ key.length < 2 ^ 63 ∧ value.length < 2 ^ 63 ∧ d' = (n, key, value) :: d := by
  dsimp only [storeCommands] at hlive
  split at hlive
  · rename_i name key value
    by_cases hset : name = setName ∧ n < 16 ∧ key.length < 2 ^ 63 ∧ value.length < 2 ^ 63
    · rw [if_pos hset] at hlive
      obtain ⟨rfl, hn, hkey, hvalue⟩ := hset
      exact ⟨key, value, rfl, rfl, hn, hkey, hvalue, (Option.some.inj hlive).symm⟩
    · rw [if_neg hset] at hlive
      exact absurd hlive nofun
  · exact absurd hlive nofun

theorem storeCommands_laws : Laws 16 storeCommands where
  dbnum_int := by decide
  select := by
    intro n _ c
    have hvalue := decimalValue_decimal n
    show (if selectName = selectName then some (decimalValue 0 (decimal n), c.2) else none) = some (n, c.2)
    rw [if_pos rfl, hvalue]
  range := by
    intro proc now argv n d d' hlive
    obtain ⟨-, -, -, -, hn, -⟩ := storeCommands_live hlive
    exact hn
  loggable := by
    intro proc now argv n d d' hlive c hc
    obtain ⟨key, value, rfl, rfl, -, hkey, hvalue, -⟩ := storeCommands_live hlive
    obtain rfl := mem_singleton.1 hc
    refine ⟨Nat.succ_pos _, (by decide : 3 < 2 ^ 31), ?_⟩
    intro a ha
    simp only [mem_cons, not_mem_nil, or_false] at ha
    rcases ha with rfl | rfl | rfl
    · decide
    · exact hkey
    · exact hvalue
  logged := by
    intro proc now argv n d d' hlive
    obtain ⟨key, value, rfl, rfl, -, -, -, rfl⟩ := storeCommands_live hlive
    rfl

def exampleServer : Server (List (ℕ × List UInt8 × List UInt8)) where
  data := [(0, [97], [49])]
  aofState := .off
  aofFd := none
  aofBuf := []
  aofRewriteBufBlocks := []
  aofSelectedDb := none
  child := none
  file := fun _ => []
  nextFile := 0
  aofFile := none

def exampleEvents : List Event :=
  [.appendonlyYes true true, .call .other 0 3 [setName, [98], [50]],
    .childDone (.success (encode [[selectName, [48]], [setName, [97], [49]]]) (fun _ => true) true),
    .call .other 0 5 [setName, [99], [51]], .flush false true]

theorem exampleServer_started : Started storeCommands [] exampleServer where
  fresh := by
    intro f hf
    have hnone : (none : Option ℕ) = some f := hf
    exact absurd hnone nofun
  state := Or.inl rfl
  selected := rfl
  noChild := rfl
  noBlocks := rfl

theorem exampleEvents_some : (run storeCommands exampleEvents exampleServer).isSome = true := by decide

theorem exampleEvents_rebuild : ChildrenRebuild storeCommands [] exampleEvents exampleServer := by
  refine ⟨nofun, fun s₁ h₁ => ⟨nofun, fun s₂ h₂ => ⟨?_, fun s₃ _ => ⟨nofun, fun s₄ _ => ⟨nofun, fun s₅ _ => trivial⟩⟩⟩⟩⟩
  obtain rfl := Option.some.inj h₁
  obtain rfl := Option.some.inj h₂
  intro base ok renamed snap hdone hsnap
  obtain ⟨rfl, -, -⟩ := Done.success.inj (Event.childDone.inj hdone)
  obtain rfl := Option.some.inj hsnap
  exact ⟨0, by decide⟩

end KVStores.Redis.Aof
