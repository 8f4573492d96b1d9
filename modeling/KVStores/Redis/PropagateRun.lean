import KVStores.Redis.Logged

/-!
# The log of a history

Commands from any clients, with the log on and loaded at the end.
-/

namespace KVStores.Redis

open Option List

open Aof Protocol

variable {Score : Type} {t : Setting Score} {clock : ℤ} {s : Master Score} {r : Request Score}

/-- The command drops a time to live from the log. -/
def Request.Drops (t : Setting Score) (s : Master Score) (r : Request Score) : Prop :=
  lookupCommand r.name = some .incrbyfloat ∧ r.argv.length = 3 ∧
    DropsTtl t.floats r.now (s.selected r.client) s.server.data ((Keyspace.start s.server.data r.argv).arg 1)
      ((Keyspace.start s.server.data r.argv).arg 2)

@[grind =] def KeepsTtl (t : Setting Score) : List (Request Score) → Master Score → Prop
  | [], _ => True
  | r :: rs, s => ¬ r.Drops t s ∧ KeepsTtl t rs (processCommand t s r)

theorem argv_cons {cmd : Command} (hname : lookupCommand r.name = some cmd) : ∃ args, r.argv = r.name :: args := by
  rw [Request.name] at hname ⊢
  cases hargv : r.argv with
  | nil =>
    rw [hargv] at hname
    have hnone : lookupCommand Sds.empty = none := by decide
    exact absurd (hnone.symm.trans hname) nofun
  | cons name args => exact ⟨args, rfl⟩

theorem logged_call {cmd : Command} (hname : lookupCommand r.name = some cmd) (harity : cmd.arityOk r.argv.length = true)
    (hcmd : cmd.inHistory = true) (hselect : cmd ≠ .select) (hok : ExpiresOk s.server.data) (hkeeps : ¬ r.Drops t s) :
    Logged t r.now clock (s.selected r.client) s.server.data (s.proc t r cmd) := by
  have hproc : procOf r.argv = cmd.aofProc := by
    have hfind : lookupCommand ((r.argv[0]?).getD Sds.empty) = some cmd := hname
    rw [procOf, hfind]
    rfl
  have hexpire : ∀ proc seconds relative, (proc, seconds, relative) ∈ meaning → cmd.aofProc = proc →
      proc = .expire ∨ proc = .pexpire ∨ proc = .expireat → Logged t r.now clock (s.selected r.client) s.server.data
        (expireGenericCommand ⟨false, r.now⟩ (Keyspace.start s.server.data r.argv) (s.selected r.client) seconds relative) := by
    intro proc seconds relative hmem haof hone
    exact logged_expire hok seconds relative fun v hparse hkey => execAll_expire hmem (hproc.trans haof) hone hparse hkey
  by_cases hverbatim : cmd.verbatim = true
  · obtain ⟨args, hargv⟩ := argv_cons hname
    have hreplays := @replays_proc Score t r.now clock (s.selected r.client) s.server.data r.argv cmd hverbatim harity hok
    have hargc := r.argc_int
    rw [hargv] at hreplays hargc
    have hlogged := logged_verbatim hname hverbatim hargc (fun e s' => rfl) hreplays
    rw [Master.proc, verbatim_given hverbatim, hargv]
    exact hlogged
  rw [Command.inHistory, Bool.or_eq_true, decide_eq_true_eq] at hcmd
  have hmem := hcmd.resolve_left hverbatim
  simp only [mem_cons, not_mem_nil, or_false] at hmem
  rcases hmem with rfl | rfl | rfl | rfl | rfl | rfl | rfl | rfl | rfl
  · exact logged_setex (by decide : (Proc.setex, true, true) ∈ meaning) hproc (Or.inl rfl) hok
  · exact logged_setex (by decide : (Proc.psetex, false, true) ∈ meaning) hproc (Or.inr rfl) hok
  · have hargc : r.argv.length = 3 := by
      simp [Command.arityOk, Command.arity] at harity
      omega
    obtain ⟨a, key, incr, hargv⟩ := length_eq_three.1 hargc
    have hkeeps' : ¬ DropsTtl t.floats r.now (s.selected r.client) s.server.data key incr := by
      intro hdrops
      refine hkeeps ⟨hname, hargc, ?_⟩
      rw [hargv]
      exact hdrops
    have hlogged := @logged_incrbyfloat Score t r.now clock (s.selected r.client) s.server.data a key incr hok hkeeps'
    rw [← hargv] at hlogged
    exact hlogged
  · exact logged_spop hok _
  · exact hexpire .expire true true (by decide) rfl (Or.inl rfl)
  · exact hexpire .pexpire false true (by decide) rfl (Or.inr (Or.inl rfl))
  · exact hexpire .expireat true false (by decide) rfl (Or.inr (Or.inr rfl))
  · obtain ⟨args, hargv⟩ := argv_cons hname
    have hargc := r.argc_int
    have hother : procOf (r.name :: args) = .other := by
      exact hproc
    rw [hargv] at hargc
    have hlogged := @logged_expire Score t r.now clock (s.selected r.client) s.server.data (r.name :: args) hok false false
      fun v hparse hkey => ⟨loggable_other hother hargc, execAll_pexpireat hname hparse hkey⟩
    rw [← hargv] at hlogged
    exact hlogged
  · exact absurd rfl hselect

/-- The buffer loads as the databases, and leaves the database selected that the next command would be logged for without a `SELECT`. -/
structure Loads (t : Setting Score) (clock : ℤ) (s : Server (ℕ → RedisDb Score)) : Prop where
  on : s.aofState = .on
  noChild : s.child = none
  load : ∃ db, loadAppendOnlyFile (loadExec t clock) s.aofBuf (0, fun _ => .empty) = some (db, s.data) ∧ ∀ n, s.aofSelectedDb = some n → db = n

/-- Between commands, every client has a database selected that there is. -/
structure Settled (t : Setting Score) (clock : ℤ) (s : Master Score) : Prop where
  loads : Loads t clock s.server
  selected : ∀ c, s.selected c < t.dbnum
  ok : ExpiresOk s.server.data

/-- **A command is propagated**, which does while loading what has been done to the databases. -/
theorem Loads.propagated (hdbnum : t.dbnum < 2 ^ 31) {s : Server (ℕ → RedisDb Score)} (hloads : Loads t clock s) {now : ℤ} {n : ℕ} {argv : List Sds}
    {d : ℕ → RedisDb Score} (hn : n < t.dbnum) (hloggable : ∀ c ∈ loggedCommands (procOf argv) now (bytesOf argv), Loggable c)
    (hexec : execAll (loadExec t clock) (loggedCommands (procOf argv) now (bytesOf argv)) (n, s.data) = some (n, d)) :
    Loads t clock { propagate s now n argv with data := d } := by
  obtain ⟨db, hload, hsel⟩ := hloads.load
  have hon : s.aofState ≠ .off := by
    rw [hloads.on]
    exact nofun
  have hselect : ∀ c, loadExec t clock [Aof.selectName, decimal n] c = some (n, c.2) := by
    intro c
    have hbytes : bytesOf [selectName, dbArg n] = [Aof.selectName, decimal n] := by
      have hprint : (dbArg n).1 = decimal n := by
        have hlow : -2 ^ 63 ≤ (n : ℤ) := by omega
        have hhigh : (n : ℤ) < 2 ^ 63 := by omega
        rw [dbArg, ll2string_bmod hlow hhigh]
        show ll2string n = decimal n
        rw [ll2string, if_neg (by omega), Int.natAbs_natCast]
      rw [bytesOf, map_cons, map_singleton, hprint]
      rfl
    rw [← hbytes]
    exact load_select hn hdbnum c.1
  have hmore := load_logged (Nat.lt_trans hn hdbnum) hselect hloggable hexec (hsel n)
  rw [propagate, if_pos hon]
  refine ⟨hloads.on, hloads.noChild, n, ?_, fun m hm => Option.some.inj hm⟩
  dsimp only [feedAppendOnlyFile]
  rw [if_pos hloads.on]
  rw [load_append _ hload]
  exact hmore

theorem propagate_data (s : Server (ℕ → RedisDb Score)) (d : ℕ → RedisDb Score) (now : ℤ) (n : ℕ) (argv : List Sds) :
    propagate { s with data := d } now n argv = { propagate s now n argv with data := d } := by
  rw [propagate, propagate]
  by_cases hon : s.aofState ≠ .off
  · have hon' : ({ s with data := d } : Server (ℕ → RedisDb Score)).aofState ≠ .off := hon
    rw [if_pos hon, if_pos hon']
    rfl
  · have hon' : ¬ ({ s with data := d } : Server (ℕ → RedisDb Score)).aofState ≠ .off := hon
    rw [if_neg hon, if_neg hon']

theorem propagateExpires_data (d : ℕ → RedisDb Score) (now : ℤ) : ∀ (l : List (ℕ × Sds)) (s : Server (ℕ → RedisDb Score)),
    propagateExpires { s with data := d } now l = { propagateExpires s now l with data := d } := by
  intro l
  induction l with
  | nil =>
    intro s
    rfl
  | cons p l ih =>
    intro s
    rw [propagateExpires, propagateExpires, foldl_cons, foldl_cons, propagate_data]
    exact ih _

/-- **Keys that were found expired** are deleted while loading. -/
theorem Loads.expired (hdbnum : t.dbnum < 2 ^ 31) {s : Server (ℕ → RedisDb Score)} (hloads : Loads t clock s) (now : ℤ) {l : List (ℕ × Sds)}
    (hl : ∀ p ∈ l, p.1 < t.dbnum) : Loads t clock { propagateExpires s now l with data := purge s.data l } := by
  induction l using List.reverseRecOn with
  | nil => exact hloads
  | append_singleton l p ih =>
    have hbefore := ih fun q hq => hl q (mem_append_left _ hq)
    have hmore := hbefore.propagated hdbnum (hl p (mem_append_right _ mem_cons_self))
      (loggable_other (procOf_del p.2) (show 2 < 2 ^ 31 by decide)) (@execAll_del Score t now clock p.1 (purge s.data l) p.2)
    rw [propagate_data] at hmore
    have hconcat : propagateExpires s now (l ++ [p]) = propagate (propagateExpires s now l) now p.1 [delName, p.2] := foldl_concat ..
    rw [hconcat, purge_concat]
    exact hmore

theorem selectCommand_lt {dbnum n : ℕ} (argv : List Sds) (hn : n < dbnum) : selectCommand dbnum argv n < dbnum := by
  rw [selectCommand]
  cases getLongLongFromObject ((argv[1]?).getD Sds.empty).1 with
  | none => exact hn
  | some id =>
    dsimp only
    by_cases hbad : id.bmod (2 ^ 32) < 0 ∨ (dbnum : ℤ) ≤ id.bmod (2 ^ 32)
    · rw [if_pos hbad]
      exact hn
    · rw [if_neg hbad]
      omega

/-- **A command of a history.** -/
theorem Settled.step (hdbnum : t.dbnum < 2 ^ 31) (hsettled : Settled t clock s)
    (hhistory : ∀ cmd, lookupCommand r.name = some cmd → cmd.inHistory = true) (hkeeps : ¬ r.Drops t s) :
    Settled t clock (processCommand t s r) := by
  rw [processCommand]
  cases hname : lookupCommand r.name with
  | none => exact hsettled
  | some cmd =>
    dsimp only
    by_cases harity : cmd.arityOk r.argv.length = true
    swap
    · rw [if_neg harity]
      exact hsettled
    rw [if_pos harity, call]
    by_cases hselect : cmd = .select
    · rw [if_pos hselect]
      refine ⟨hsettled.loads, ?_, hsettled.ok⟩
      intro c
      dsimp only
      by_cases hc : c = r.client
      · rw [hc, Function.update_self]
        exact selectCommand_lt _ (hsettled.selected _)
      · rw [Function.update_of_ne hc]
        exact hsettled.selected c
    rw [if_neg hselect]
    have hlogged := @logged_call Score t clock s r cmd hname harity (hhistory cmd hname) hselect hsettled.ok hkeeps
    generalize s.proc t r cmd = k at hlogged
    have hn := hsettled.selected r.client
    have hexpires := hsettled.loads.expired hdbnum r.now fun p hp => by rw [hlogged.home p hp]; exact hn
    dsimp only
    rw [propagateExpires_data]
    by_cases hdirty : k.dirty = 0
    · rw [if_pos hdirty, hlogged.clean hdirty]
      refine ⟨hexpires, hsettled.selected, ?_⟩
      have hok := hlogged.ok
      rw [hlogged.clean hdirty] at hok
      exact hok
    · rw [if_neg hdirty, propagate_data]
      have hmore := hexpires.propagated hdbnum hn (hlogged.loggable hdirty) (hlogged.replayed hdirty)
      rw [propagate_data] at hmore
      exact ⟨hmore, hsettled.selected, hlogged.ok⟩

theorem Settled.run (hdbnum : t.dbnum < 2 ^ 31) : ∀ {rs : List (Request Score)} {s : Master Score}, Settled t clock s →
    (∀ r ∈ rs, ∀ cmd, lookupCommand r.name = some cmd → cmd.inHistory = true) → KeepsTtl t rs s → Settled t clock (history t rs s) := by
  intro rs
  induction rs with
  | nil =>
    intro s hsettled _ _
    exact hsettled
  | cons r rs ih =>
    intro s hsettled hhistory hkeeps
    have hstep := hsettled.step hdbnum (hhistory r mem_cons_self) hkeeps.1
    exact ih hstep (fun r' hr' => hhistory r' (mem_cons_of_mem _ hr')) hkeeps.2

theorem Master.empty_settled (hpos : 0 < t.dbnum) : Settled t clock (Master.empty : Master Score) := by
  refine ⟨⟨rfl, rfl, 0, rfl, nofun⟩, fun _ => hpos, ?_⟩
  intro n key h
  exact absurd rfl h

/-- **The log of a history** loads as the databases, if no `INCRBYFLOAT` drops a time to live. -/
theorem history_run (hpos : 0 < t.dbnum) (hdbnum : t.dbnum < 2 ^ 31) {rs : List (Request Score)}
    (hhistory : ∀ r ∈ rs, ∀ cmd, lookupCommand r.name = some cmd → cmd.inHistory = true) (hkeeps : KeepsTtl t rs Master.empty) :
    ∃ n, loadAppendOnlyFile (loadExec t clock) (history t rs Master.empty).server.aofBuf (0, fun _ => .empty) =
      some (n, (history t rs Master.empty).server.data) := by
  obtain ⟨n, hload, -⟩ := ((Master.empty_settled hpos).run hdbnum hhistory hkeeps).loads.load
  exact ⟨n, hload⟩

def droppingRequests : List (Request Long) :=
  [⟨0, 0, [⟨[83, 69, 84], by decide⟩, ⟨[107], by decide⟩, ⟨[49], by decide⟩], by decide, longSetting.given⟩,
    ⟨0, 0, [⟨[69, 88, 80, 73, 82, 69], by decide⟩, ⟨[107], by decide⟩, ⟨[49, 48, 48], by decide⟩], by decide, longSetting.given⟩,
    ⟨0, 0, [⟨[73, 78, 67, 82, 66, 89, 70, 76, 79, 65, 84], by decide⟩, ⟨[107], by decide⟩, ⟨[49], by decide⟩], by decide, longSetting.given⟩]

/-- The key loses its time to live. -/
theorem history_drops : ¬ ∀ rs : List (Request Long), (∀ r ∈ rs, ∀ cmd, lookupCommand r.name = some cmd → cmd.inHistory = true) →
    ∃ n, loadAppendOnlyFile (loadExec longSetting 0) (history longSetting rs Master.empty).server.aofBuf (0, fun _ => .empty) =
      some (n, (history longSetting rs Master.empty).server.data) := by
  intro hclaim
  have hcommands : ∀ r ∈ droppingRequests, ∀ cmd, lookupCommand r.name = some cmd → cmd.inHistory = true := by
    intro r hr cmd hname
    have hall : droppingRequests.all (fun r => (lookupCommand r.name).all Command.inHistory) = true := by decide
    have hone := List.all_eq_true.1 hall r hr
    rw [hname] at hone
    exact hone
  obtain ⟨n, hload⟩ := hclaim droppingRequests hcommands
  have hgone : (loadAppendOnlyFile (loadExec longSetting 0) (history longSetting droppingRequests Master.empty).server.aofBuf
      (0, fun _ => .empty)).map (fun r => (r.2 0).expires ⟨[107], by decide⟩) = some none := by decide +kernel
  have hkept : ((history longSetting droppingRequests Master.empty).server.data 0).expires ⟨[107], by decide⟩ = some 100000 := by decide
  rw [hload, map_some] at hgone
  exact absurd (hkept.symm.trans (Option.some.inj hgone)) nofun

def keepingRequests : List (Request Long) :=
  [⟨0, 0, [⟨[83, 69, 84], by decide⟩, ⟨[107], by decide⟩, ⟨[49], by decide⟩], by decide, longSetting.given⟩,
    ⟨1, 0, [⟨[73, 78, 67, 82, 66, 89, 70, 76, 79, 65, 84], by decide⟩, ⟨[107], by decide⟩, ⟨[49], by decide⟩], by decide, longSetting.given⟩,
    ⟨0, 0, [⟨[80, 69, 88, 80, 73, 82, 69], by decide⟩, ⟨[107], by decide⟩, ⟨[49, 48, 48], by decide⟩], by decide, longSetting.given⟩,
    ⟨1, 101, [⟨[71, 69, 84], by decide⟩, ⟨[107], by decide⟩], by decide, longSetting.given⟩]

theorem keepingRequests_commands : ∀ r ∈ keepingRequests, ∀ cmd, lookupCommand r.name = some cmd → cmd.inHistory = true := by
  intro r hr cmd hname
  have hall : keepingRequests.all (fun r => (lookupCommand r.name).all Command.inHistory) = true := by decide
  have hone := List.all_eq_true.1 hall r hr
  rw [hname] at hone
  exact hone

theorem keepingRequests_keep : KeepsTtl longSetting keepingRequests Master.empty := by
  refine ⟨?_, ?_, ?_, ?_, trivial⟩
  · rintro ⟨hname, -⟩
    exact absurd hname (by decide)
  · rintro ⟨-, -, ⟨w, hw, -⟩, -⟩
    have hnone : ((processCommand longSetting Master.empty keepingRequests[0]).server.data 0).expires ⟨[107], by decide⟩ = none := by decide
    exact absurd (hnone.symm.trans hw) nofun
  · rintro ⟨hname, -⟩
    exact absurd hname (by decide)
  · rintro ⟨hname, -⟩
    exact absurd hname (by decide)

theorem history_run_keeps :
    ∃ n, loadAppendOnlyFile (loadExec longSetting 7) (history longSetting keepingRequests Master.empty).server.aofBuf (0, fun _ => .empty) =
      some (n, (history longSetting keepingRequests Master.empty).server.data) :=
  history_run (by decide) (by decide) keepingRequests_commands keepingRequests_keep

theorem putDbs_ok {now : ℕ} : ∀ {dbs : List (StoredDb Score)} {j : ℕ} {d : ℕ → RedisDb Score}, ExpiresOk d → ExpiresOk (putDbs now j dbs d) := by
  have hentries : ∀ {l : List (Entry Score)} {j : ℕ} {d : ℕ → RedisDb Score}, ExpiresOk d → ExpiresOk (putEntries now j d l) := by
    intro l j
    induction l with
    | nil => exact id
    | cons x l ih =>
      intro d hok
      refine ih ?_
      rw [putEntry]
      cases x.written now with
      | none => exact hok.putDict _ _ _
      | some w => exact (hok.putDict _ _ _).putExpires fun _ => by simp [putDict_dict]
  intro dbs
  induction dbs with
  | nil => exact id
  | cons db dbs ih => exact fun hok => ih (hentries hok)

/-- A server that has loaded a log into its databases and goes on behind it; `aof_selected_db` is -1. -/
def Master.restarted (log : List UInt8) (d : ℕ → RedisDb Score) : Master Score :=
  { (Master.empty : Master Score) with server := { (Master.empty : Master Score).server with data := d, aofBuf := log } }

/-- The log loads, and goes on loading as the databases behind any history. -/
def GoesOn (t : Setting Score) (clock : ℤ) (log : List UInt8) : Prop :=
  ∃ c d, loadAppendOnlyFile (loadExec t clock) log (0, fun _ => .empty) = some (c, d) ∧ ∀ rs : List (Request Score),
    (∀ r ∈ rs, ∀ cmd, lookupCommand r.name = some cmd → cmd.inHistory = true) → KeepsTtl t rs (.restarted log d) →
      ∃ n, loadAppendOnlyFile (loadExec t clock) (history t rs (.restarted log d)).server.aofBuf (0, fun _ => .empty) =
        some (n, (history t rs (.restarted log d)).server.data)

end KVStores.Redis
