import KVStores.Redis.Propagate

/-!
# The log of each command

`Logged` is what the log has to make of a command: loaded behind the deletions of the keys that it found expired, what is logged of it leads
to the same databases. Some commands are logged in other words.

* `SETEX` and `PSETEX` as `SET` and `PEXPIREAT`.
* `EXPIRE`, `PEXPIRE` and `EXPIREAT` as `PEXPIREAT`, or as `DEL` when the time is over.
* `SPOP` as `SREM`, and `INCRBYFLOAT` as `SET`, which is right unless the key has a time to live (`DropsTtl`).
-/

namespace KVStores.Redis

open List Option

open Aof

variable {Score : Type} {t : Setting Score} {now clock : ℤ} {n : ℕ} {d : ℕ → RedisDb Score} {argv : List Sds} {k : Keyspace Score} {key : Sds}

/-- **What the log has to make of a command** that has made `k` of the databases `d`. -/
structure Logged (t : Setting Score) (now clock : ℤ) (n : ℕ) (d : ℕ → RedisDb Score) (k : Keyspace Score) : Prop where
  home : ∀ p ∈ k.expired, p.1 = n
  ok : ExpiresOk k.db
  clean : k.dirty = 0 → k.db = purge d k.expired
  loggable : k.dirty ≠ 0 → ∀ c ∈ loggedCommands (procOf k.argv) now (bytesOf k.argv), Loggable c
  replayed : k.dirty ≠ 0 → execAll (loadExec t clock) (loggedCommands (procOf k.argv) now (bytesOf k.argv)) (n, purge d k.expired) = some (n, k.db)

theorem logged_purged {l : List (ℕ × Sds)} (hhome : ∀ p ∈ l, p.1 = n) (hok : ExpiresOk d) : Logged t now clock n d (purged d argv l) :=
  ⟨hhome, hok.purge l, fun _ => rfl, fun h => absurd rfl h, fun h => absurd rfl h⟩

theorem logged_start (hok : ExpiresOk d) : Logged t now clock n d (Keyspace.start d argv) := by
  exact logged_purged (fun p hp => absurd hp not_mem_nil) hok

variable {cmd : Command} {args : List Sds}

theorem execAll_other (hname : lookupCommand name = some cmd) (hproc : cmd.aofProc = .other)
    (hcmd : cmd ≠ .select) : execAll (loadExec t clock) (loggedCommands (procOf (name :: args)) now (bytesOf (name :: args))) (n, d) =
      some (n, (cmd.proc t ⟨true, clock⟩ (Keyspace.start d (name :: args)) n).db) := by
  have hother : procOf (name :: args) = .other := by
    have hfind : lookupCommand (((name :: args)[0]?).getD Sds.empty) = some cmd := hname
    rw [procOf, hfind, map_some, getD_some, hproc]
  rw [hother, loggedCommands, execAll, loadExec_proc hname hcmd]
  rfl

theorem loggable_other {name : Sds} {args : List Sds} (hproc : procOf (name :: args) = .other) (hargc : (name :: args).length < 2 ^ 31) :
    ∀ c ∈ loggedCommands (procOf (name :: args)) now (bytesOf (name :: args)), Loggable c := by
  intro c hc
  rw [hproc, loggedCommands] at hc
  have heq : c = bytesOf (name :: args) := mem_singleton.1 hc
  rw [heq]
  exact loggable_bytesOf (Nat.succ_pos _) hargc

theorem verbatim_aofProc (hcmd : cmd.verbatim = true) : cmd.aofProc = .other ∧ cmd ≠ .select := by
  refine ⟨?_, ?_⟩
  · cases cmd <;> first | rfl | exact absurd hcmd Bool.false_ne_true
  · rintro rfl
    exact absurd hcmd Bool.false_ne_true

theorem verbatim_given (hcmd : cmd.verbatim = true) (given : Given Score) (e : Env) (s : Keyspace Score) :
    cmd.proc { t with given := given } e s n = cmd.proc t e s n := by
  cases cmd <;> first | rfl | exact absurd hcmd Bool.false_ne_true

/-- **A command that is propagated as it is.** -/
theorem logged_verbatim (hname : lookupCommand name = some cmd) (hcmd : cmd.verbatim = true)
    (hargc : (name :: args).length < 2 ^ 31) {c : Env → Keyspace Score → Keyspace Score} (hc : ∀ e s, c e s = cmd.proc t e s n)
    (hreplays : Replays c now clock n d (name :: args)) : Logged t now clock n d (c ⟨false, now⟩ (Keyspace.start d (name :: args))) := by
  obtain ⟨hproc, hselect⟩ := verbatim_aofProc hcmd
  have hother : procOf (name :: args) = .other := by
    have hfind : lookupCommand (((name :: args)[0]?).getD Sds.empty) = some cmd := hname
    rw [procOf, hfind, map_some, getD_some, hproc]
  refine ⟨hreplays.home, hreplays.ok, hreplays.clean, ?_, ?_⟩
  · intro _
    rw [hreplays.argv_eq]
    exact loggable_other hother hargc
  · intro _
    rw [hreplays.argv_eq, execAll_other hname hproc hselect, ← hc, hreplays.again]

theorem arg_bytesOf (argv : List Sds) (i : ℕ) : Aof.arg (bytesOf argv) i = ((argv[i]?).getD Sds.empty).1 := by
  rw [Aof.arg, bytesOf, List.getElem?_map]
  cases argv[i]? with
  | none => rfl
  | some a => rfl

theorem bmod_long (x : ℤ) : -2 ^ 63 ≤ x.bmod (2 ^ 64) ∧ x.bmod (2 ^ 64) < 2 ^ 63 := by
  have hlow := Int.le_bmod (x := x) (m := 2 ^ 64) (by decide)
  have hhigh := Int.bmod_lt (x := x) (m := 2 ^ 64) (by decide)
  omega

def meaning : List (Proc × Bool × Bool) :=
  [(.expire, true, true), (.setex, true, true), (.pexpire, false, true), (.psetex, false, true), (.expireat, true, false)]

variable {proc : Proc} {seconds relative : Bool}

/-- **`catAppendOnlyExpireAtCommand`** writes the point in time that the command means. -/
theorem expireAtCommand_eq (hproc : (proc, seconds, relative) ∈ meaning) (now : ℤ) (key arg : Sds) :
    ∃ w : Long, w.1 = expireWhen seconds relative now (strtoll arg.1) ∧
      expireAtCommand proc now key.1 arg.1 = bytesOf [pexpireatName, key, (Element.int w).value] := by
  simp only [meaning, mem_cons, not_mem_nil, or_false, Prod.mk.injEq] at hproc
  rcases hproc with ⟨rfl, rfl, rfl⟩ | ⟨rfl, rfl, rfl⟩ | ⟨rfl, rfl, rfl⟩ | ⟨rfl, rfl, rfl⟩ | ⟨rfl, rfl, rfl⟩
  · exact ⟨⟨((strtoll arg.1 * 1000).bmod (2 ^ 64) + now).bmod (2 ^ 64), bmod_long _⟩, rfl, rfl⟩
  · exact ⟨⟨((strtoll arg.1 * 1000).bmod (2 ^ 64) + now).bmod (2 ^ 64), bmod_long _⟩, rfl, rfl⟩
  · exact ⟨⟨(strtoll arg.1 + now).bmod (2 ^ 64), bmod_long _⟩, rfl, rfl⟩
  · exact ⟨⟨(strtoll arg.1 + now).bmod (2 ^ 64), bmod_long _⟩, rfl, rfl⟩
  · exact ⟨⟨(strtoll arg.1 * 1000).bmod (2 ^ 64), bmod_long _⟩, rfl, rfl⟩

theorem execAll_expire (hproc : (proc, seconds, relative) ∈ meaning) (hargv : procOf argv = proc)
    (hone : proc = .expire ∨ proc = .pexpire ∨ proc = .expireat) {v : ℤ}
    (hparse : getLongLongFromObject ((Keyspace.start d argv).arg 2).1 = some v) (hkey : (d n).dict ((Keyspace.start d argv).arg 1) ≠ none) :
    (∀ c ∈ loggedCommands (procOf argv) now (bytesOf argv), Loggable c) ∧
      execAll (loadExec t clock) (loggedCommands (procOf argv) now (bytesOf argv)) (n, d) =
        some (n, putExpires d n ((Keyspace.start d argv).arg 1) (some (expireWhen seconds relative now v))) := by
  obtain ⟨w, hw, hcommand⟩ := expireAtCommand_eq hproc now ((Keyspace.start d argv).arg 1) ((Keyspace.start d argv).arg 2)
  have hlogged : loggedCommands (procOf argv) now (bytesOf argv) =
      [bytesOf [pexpireatName, (Keyspace.start d argv).arg 1, (Element.int w).value]] := by
    have hkeyarg : Aof.arg (bytesOf argv) 1 = ((Keyspace.start d argv).arg 1).1 := arg_bytesOf argv 1
    have htimearg : Aof.arg (bytesOf argv) 2 = ((Keyspace.start d argv).arg 2).1 := arg_bytesOf argv 2
    rw [← hcommand, ← hkeyarg, ← htimearg, hargv]
    rcases hone with rfl | rfl | rfl <;> rfl
  rw [hlogged]
  refine ⟨?_, ?_⟩
  · intro c hc
    rw [mem_singleton.1 hc]
    exact loggable_bytesOf (Nat.succ_pos _) (show 3 < 2 ^ 31 by decide)
  · rw [execAll, load_pexpireat w hkey, hw, strtoll_of_getLongLong hparse]
    rfl

theorem execAll_del (key : Sds) :
    execAll (loadExec t clock) (loggedCommands (procOf [delName, key]) now (bytesOf [delName, key])) (n, d) = some (n, deleteKey d n key) := by
  have hname : lookupCommand delName = some .del := by decide
  rw [execAll_other hname rfl (by decide)]
  show some (n, (delLoop n [key] (Keyspace.start d [delName, key])).db) = _
  rw [delLoop, delLoop]
  by_cases hthere : (lookupKey (Keyspace.start d [delName, key]) n key).isSome = true
  · rw [if_pos hthere]
    rfl
  · rw [if_neg hthere]
    rfl

theorem procOf_del (key : Sds) : procOf [delName, key] = .other := by
  have hname : lookupCommand delName = some .del := by decide
  have hfind : lookupCommand (([delName, key][0]?).getD Sds.empty) = some .del := hname
  rfl

/-- **A command of the `EXPIRE` family**, given what is logged of it when the time is not over. -/
theorem logged_expire (hok : ExpiresOk d) (seconds relative : Bool)
    (hset : ∀ v, getLongLongFromObject ((Keyspace.start d argv).arg 2).1 = some v → (d n).dict ((Keyspace.start d argv).arg 1) ≠ none →
      (∀ c ∈ loggedCommands (procOf argv) now (bytesOf argv), Loggable c) ∧
        execAll (loadExec t clock) (loggedCommands (procOf argv) now (bytesOf argv)) (n, d) =
          some (n, putExpires d n ((Keyspace.start d argv).arg 1) (some (expireWhen seconds relative now v)))) :
    Logged t now clock n d (expireGenericCommand ⟨false, now⟩ (Keyspace.start d argv) n seconds relative) := by
  rw [expireGenericCommand]
  cases hparse : getLongLongFromObject ((Keyspace.start d argv).arg 2).1 with
  | none => exact logged_start hok
  | some v =>
    dsimp only
    by_cases hnone : (lookupKey (Keyspace.start d argv) n ((Keyspace.start d argv).arg 1)).isNone = true
    · rw [if_pos hnone]
      exact logged_start hok
    rw [if_neg hnone]
    have hkey : (d n).dict ((Keyspace.start d argv).arg 1) ≠ none := fun h => hnone (isNone_iff_eq_none.2 h)
    obtain ⟨hloggable, hexec⟩ := hset v hparse hkey
    by_cases hover : expireWhen seconds relative now v ≤ now ∧ false = false
    · rw [if_pos hover]
      refine ⟨forall_mem_nil _, hok.deleteKey n _, fun h => absurd h (Nat.succ_ne_zero 0), fun _ => ?_, fun _ => execAll_del _⟩
      exact loggable_other (procOf_del _) (show 2 < 2 ^ 31 by decide)
    · rw [if_neg hover]
      exact ⟨forall_mem_nil _, hok.putExpires fun _ => hkey, fun h => absurd h (Nat.succ_ne_zero 0), fun _ => hloggable, fun _ => hexec⟩

theorem execAll_pexpireat (hname : lookupCommand name = some .pexpireat) {v : ℤ}
    (hparse : getLongLongFromObject ((Keyspace.start d (name :: args)).arg 2).1 = some v)
    (hkey : (d n).dict ((Keyspace.start d (name :: args)).arg 1) ≠ none) :
    execAll (loadExec t clock) (loggedCommands (procOf (name :: args)) now (bytesOf (name :: args))) (n, d) =
      some (n, putExpires d n ((Keyspace.start d (name :: args)).arg 1) (some v)) := by
  rw [execAll_other hname rfl (by decide)]
  have hthere : ¬ (lookupKey (Keyspace.start d (name :: args)) n ((Keyspace.start d (name :: args)).arg 1)).isNone = true :=
    fun h => hkey (isNone_iff_eq_none.1 h)
  show some (n, (expireGenericCommand ⟨true, clock⟩ (Keyspace.start d (name :: args)) n false false).db) = _
  rw [expireGenericCommand, hparse]
  dsimp only
  rw [if_neg hthere, if_neg (by simp)]
  rfl

theorem expireMilliseconds_some {arg : Sds} {ms : ℤ} (hms : expireMilliseconds (some arg) seconds = some ms) :
    ((now + ms).bmod (2 ^ 64)) = expireWhen seconds true now (strtoll arg.1) := by
  obtain ⟨v, hparse, hms⟩ := bind_eq_some_iff.1 hms
  by_cases hle : v ≤ 0
  · rw [if_pos hle] at hms
    exact absurd hms.symm (some_ne_none ms)
  rw [if_neg hle] at hms
  obtain rfl := Option.some.inj hms
  rw [strtoll_of_getLongLong hparse, expireWhen, if_pos rfl, Int.add_comm]

theorem load_setKey (v : Sds) :
    loadExec t clock (bytesOf [setName, key, v]) (n, d) = some (n, putExpires (putDict d n key (some (.string v))) n key none) := by
  have hname : lookupCommand setName = some .set := by decide
  rw [loadExec_proc hname (by decide)]
  congr 2
  show (setGenericCommand ⟨true, clock⟩ (Keyspace.start d [setName, key, v]) n false key v none false).db = _
  exact setKey_db ⟨true, clock⟩ (Keyspace.start d [setName, key, v]) n key (.string v)

/-- **`SETEX` and `PSETEX`.** -/
theorem logged_setex (hproc : (proc, seconds, true) ∈ meaning) (hargv : procOf argv = proc)
    (htwo : proc = .setex ∨ proc = .psetex) (hok : ExpiresOk d) :
    Logged t now clock n d (setGenericCommand ⟨false, now⟩ (Keyspace.start d argv) n false ((Keyspace.start d argv).arg 1)
      ((Keyspace.start d argv).arg 3) (some ((Keyspace.start d argv).arg 2)) seconds) := by
  obtain ⟨w, hw, hcommand⟩ := expireAtCommand_eq hproc now ((Keyspace.start d argv).arg 1) ((Keyspace.start d argv).arg 2)
  have hlogged : loggedCommands (procOf argv) now (bytesOf argv) =
      [bytesOf [setName, (Keyspace.start d argv).arg 1, (Keyspace.start d argv).arg 3],
        bytesOf [pexpireatName, (Keyspace.start d argv).arg 1, (Element.int w).value]] := by
    have hkeyarg : Aof.arg (bytesOf argv) 1 = ((Keyspace.start d argv).arg 1).1 := arg_bytesOf argv 1
    have htimearg : Aof.arg (bytesOf argv) 2 = ((Keyspace.start d argv).arg 2).1 := arg_bytesOf argv 2
    have hvalarg : Aof.arg (bytesOf argv) 3 = ((Keyspace.start d argv).arg 3).1 := arg_bytesOf argv 3
    have hset : bytesOf [setName, (Keyspace.start d argv).arg 1, (Keyspace.start d argv).arg 3] =
        [Aof.setName, ((Keyspace.start d argv).arg 1).1, ((Keyspace.start d argv).arg 3).1] := rfl
    rw [hset, ← hcommand, ← hkeyarg, ← htimearg, ← hvalarg, hargv]
    rcases htwo with rfl | rfl <;> rfl
  generalize (Keyspace.start d argv).arg 1 = key at hlogged
  generalize (Keyspace.start d argv).arg 2 = arg at hw
  generalize (Keyspace.start d argv).arg 3 = val at hlogged
  cases hms : expireMilliseconds (some arg) seconds with
  | none =>
    have hnothing : setGenericCommand ⟨false, now⟩ (Keyspace.start d argv) n false key val (some arg) seconds = Keyspace.start d argv := by
      rw [setGenericCommand, hms]
    rw [hnothing]
    exact logged_start hok
  | some ms =>
    have hlive : setGenericCommand ⟨false, now⟩ (Keyspace.start d argv) n false key val (some arg) seconds =
        setExpire (addDirty (Keyspace.setKey ⟨false, now⟩ (Keyspace.start d argv) n key (.string val)) 1) n key w.1 := by
      rw [setGenericCommand, hms, hw, ← expireMilliseconds_some hms]
      dsimp only
      rw [if_neg Bool.false_ne_true, if_neg fun h => Bool.false_ne_true h.1]
      exact if_pos rfl
    obtain ⟨hdb, hargv', -, l, hl, hmem⟩ := foldl_setKey ⟨false, now⟩ n [(key, val)] (Keyspace.start d argv)
    rw [foldl_cons, foldl_nil] at hdb hargv' hl
    rw [hlive]
    generalize Keyspace.setKey ⟨false, now⟩ (Keyspace.start d argv) n key (.string val) = s at hdb hargv' hl
    have hdb' : (setExpire (addDirty s 1) n key w.1).db = putExpires (setAll n [(key, val)] (purge d l)) n key (some w.1) := by
      rw [setAll_purge hmem]
      exact congrArg (fun d => putExpires d n key (some w.1)) hdb
    have hl' : (setExpire (addDirty s 1) n key w.1).expired = l := hl
    have hargs : (setExpire (addDirty s 1) n key w.1).argv = argv := hargv'
    have hthere : (setAll n [(key, val)] (purge d l) n).dict key ≠ none := by
      rw [setAll, foldl_cons, foldl_nil, putExpires_dict, putDict_dict, if_pos ⟨rfl, rfl⟩]
      exact some_ne_none _
    refine ⟨?_, ?_, fun h => absurd h (Nat.succ_ne_zero _), fun _ => ?_, fun _ => ?_⟩
    · rw [hl']
      exact fun p hp => (hmem p hp).1
    · rw [hdb']
      exact (hok.purge l).setAll.putExpires fun _ => hthere
    · rw [hargs, hlogged]
      intro c hc
      rcases mem_cons.1 hc with rfl | hc
      · exact loggable_bytesOf (Nat.succ_pos _) (show 3 < 2 ^ 31 by decide)
      · rw [mem_singleton.1 hc]
        exact loggable_bytesOf (Nat.succ_pos _) (show 3 < 2 ^ 31 by decide)
    · rw [hargs, hlogged, hl', hdb', execAll, load_setKey, bind_some, execAll]
      have hload := @load_pexpireat Score t clock n (setAll n [(key, val)] (purge d l)) key w hthere
      rw [setAll, foldl_cons, foldl_nil] at hload ⊢
      rw [hload]
      rfl

theorem load_srem {members : Finset Sds} {ele : Sds} (hkey : (d n).dict key = some (.set members)) (hele : ele ∈ members) :
    execAll (loadExec t clock) (loggedCommands (procOf [sremName, key, ele]) now (bytesOf [sremName, key, ele])) (n, d) =
      some (n, if members.erase ele = ∅ then deleteKey d n key else putDict d n key (some (.set (members.erase ele)))) := by
  have hname : lookupCommand sremName = some .srem := by decide
  have hchange : sremChange [ele] (some (.set members) : Option (Value Score)) =
      if members.erase ele = ∅ then .delete 1 else .store (.set (members.erase ele)) 1 := by
    rw [sremChange, sremLoop, if_pos hele]
    by_cases hempty : members.erase ele = ∅
    · rw [if_pos hempty, if_pos hempty]
      rfl
    · rw [if_neg hempty, if_neg hempty, sremLoop]
      exact if_neg hempty
  have hlookup : lookupKey (Keyspace.start d [sremName, key, ele]) n key = some (.set members) := hkey
  rw [execAll_other hname rfl (by decide)]
  show some (n, (changeKey ⟨true, clock⟩ (Keyspace.start d [sremName, key, ele]) n key (sremChange [ele])).db) = _
  rw [changeKey, expireIfNeeded_loading, hlookup, hchange]
  by_cases hempty : members.erase ele = ∅
  · rw [if_pos hempty, if_pos hempty]
    rfl
  · rw [if_neg hempty, if_neg hempty]
    rfl

/-- **`SPOP`**, with the element that was come upon. -/
theorem logged_spop (hok : ExpiresOk d) (ele : Sds) : Logged t now clock n d (spopCommand ele ⟨false, now⟩ (Keyspace.start d argv) n) := by
  obtain ⟨l, hfound, -, hhome, -⟩ := expireIfNeeded_found now d argv [] n ((Keyspace.start d argv).arg 1) (forall_mem_nil _)
  have hexpire : expireIfNeeded ⟨false, now⟩ (Keyspace.start d argv) n ((Keyspace.start d argv).arg 1) = purged d argv l := hfound
  rw [spopCommand, hexpire]
  generalize (Keyspace.start d argv).arg 1 = key
  cases hkey : (purge d l n).dict key with
  | none =>
    have hlookup : lookupKey (purged d argv l) n key = none := hkey
    rw [hlookup]
    exact logged_purged hhome hok
  | some o =>
    have hlookup : lookupKey (purged d argv l) n key = some o := hkey
    rw [hlookup]
    cases o with
    | set members =>
      dsimp only
      by_cases hele : ele ∈ members
      · rw [if_pos hele]
        have hload := @load_srem Score t now clock n (purge d l) key members ele hkey hele
        have hproc : procOf [sremName, key, ele] = .other := by
          have hname : lookupCommand (([sremName, key, ele][0]?).getD Sds.empty) = some .srem := (by decide : lookupCommand sremName = some .srem)
          rfl
        have hloggable := @loggable_other now sremName [key, ele] hproc (show 3 < 2 ^ 31 by decide)
        by_cases hempty : members.erase ele = ∅
        · rw [if_pos hempty] at hload ⊢
          exact ⟨hhome, (hok.purge l).deleteKey n key, fun h => absurd h (Nat.succ_ne_zero _), fun _ => hloggable, fun _ => hload⟩
        · rw [if_neg hempty] at hload ⊢
          exact ⟨hhome, (hok.purge l).putDict n key _, fun h => absurd h (Nat.succ_ne_zero _), fun _ => hloggable, fun _ => hload⟩
      · rw [if_neg hele]
        exact logged_purged hhome hok
    | string _ => exact logged_purged hhome hok
    | list _ => exact logged_purged hhome hok
    | hash _ => exact logged_purged hhome hok
    | zset _ => exact logged_purged hhome hok

theorem purge_nil (d : ℕ → RedisDb Score) : purge d [] = d := rfl

theorem expireIfNeeded_over {w : ℤ} (hw : (d n).expires key = some w) (hpos : 0 ≤ w) (hover : w < now) :
    expireIfNeeded ⟨false, now⟩ (purged d argv []) n key = purged d argv [(n, key)] := by
  have hget : getExpire (purged d argv []) n key = w := by
    have hexpires : ((purged d argv []).db n).expires key = some w := hw
    rw [getExpire, hexpires]
    rfl
  rw [expireIfNeeded, hget, if_neg (by omega), if_neg Bool.false_ne_true]
  dsimp only
  rw [if_neg (by omega)]
  rfl

/-- **What goes wrong**: the key has a time to live that is not over, and its value can be incremented. -/
def DropsTtl (floats : Floats Score) (now : ℤ) (n : ℕ) (d : ℕ → RedisDb Score) (key incr : Sds) : Prop :=
  (∃ w, (d n).expires key = some w ∧ (w < 0 ∨ now ≤ w)) ∧ incrbyfloatResult floats ((d n).dict key) incr ≠ none

/-- `incrbyfloatCommand` with its result. -/
def incrbyfloatTo (d : ℕ → RedisDb Score) (argv : List Sds) (l : List (ℕ × Sds)) (n : ℕ) (key : Sds) : Option Sds → Keyspace Score
  | none => ⟨d, 0, argv, [], [], l⟩
  | some new => ⟨putDict d n key (some (.string new)), 1, [setName, key, new], [(n, key)], [], l⟩

/-- **`INCRBYFLOAT`** of any other key. -/
theorem logged_incrbyfloat {name key incr : Sds} (hok : ExpiresOk d) (hkeeps : ¬ DropsTtl t.floats now n d key incr) :
    Logged t now clock n d (incrbyfloatCommand t.floats ⟨false, now⟩ (Keyspace.start d [name, key, incr]) n) := by
  obtain ⟨l, hfound, hl, hhome, -⟩ := expireIfNeeded_found now d [name, key, incr] [] n key (forall_mem_nil _)
  have hexpire : expireIfNeeded ⟨false, now⟩ (Keyspace.start d [name, key, incr]) n
      ((Keyspace.start d [name, key, incr]).arg 1) = purged d [name, key, incr] l := hfound
  have hlive : incrbyfloatCommand t.floats ⟨false, now⟩ (Keyspace.start d [name, key, incr]) n =
      incrbyfloatTo (purge d l) [name, key, incr] l n key (incrbyfloatResult t.floats ((purge d l n).dict key) incr) := by
    rw [incrbyfloatCommand, hexpire]
    rfl
  rw [hlive]
  cases hresult : incrbyfloatResult t.floats ((purge d l n).dict key) incr with
  | none => exact logged_purged hhome hok
  | some new =>
    -- a time to live that was over went with the key
    have hnone : (purge d l n).expires key = none := by
      by_contra hne
      obtain ⟨w, hw⟩ := ne_none_iff_exists'.1 hne
      rcases hl with rfl | rfl
      · rw [purge_nil] at hresult hw
        refine hkeeps ⟨⟨w, hw, ?_⟩, by rw [hresult]; exact some_ne_none new⟩
        by_contra hover
        rw [not_or, not_lt, not_le] at hover
        have hsame := hfound.symm.trans (expireIfNeeded_over hw hover.1 hover.2)
        have hgone : [] = [(n, key)] := congrArg Keyspace.expired hsame
        exact absurd hgone.symm (cons_ne_nil _ _)
      · rw [purge_concat, deleteKey_expires, if_pos ⟨rfl, rfl⟩] at hw
        exact absurd hw.symm (some_ne_none w)
    have hproc : procOf [setName, key, new] = .other := by
      have hname : lookupCommand (([setName, key, new][0]?).getD Sds.empty) = some .set := (by decide : lookupCommand setName = some .set)
      rfl
    refine ⟨hhome, (hok.purge l).putDict n key _, fun h => absurd h (Nat.succ_ne_zero 0),
      fun _ => loggable_other hproc (show 3 < 2 ^ 31 by decide), fun _ => ?_⟩
    dsimp only [incrbyfloatTo]
    rw [hproc, loggedCommands, execAll, load_set new hnone]
    rfl

end KVStores.Redis
