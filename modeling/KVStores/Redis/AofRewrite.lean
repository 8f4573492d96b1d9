import KVStores.Redis.CommandTable

/-!
# Rewriting the append only file

`rewriteAppendOnlyFile`: a log that is short, as a list of commands that build the databases, with all writes succeeding.

What is left out: the temporary file, and the iterators.
-/

namespace KVStores.Redis

open List Option

open Protocol

inductive Element
  | str (s : Sds)
  | int (v : Long)
deriving DecidableEq

def Element.bytes : Element → List UInt8
  | .str s => s.1
  | .int v => ll2string v.1

theorem Element.bytes_length (x : Element) : x.bytes.length < 2 ^ 31 := by
  cases x with
  | str s => exact s.2
  | int v =>
    have hlen := ll2string_length v.1
    rw [Int.bmod_eq_of_le (by have := v.2; omega) (by have := v.2; omega)] at hlen
    exact hlen

def Element.value (x : Element) : Sds := ⟨x.bytes, x.bytes_length⟩

inductive Obj (Score : Type)
  | string (o : Element)
  | listZiplist (zl : List Element)
  | listLinked (l : List Element)
  | setIntset (is : List Long)
  | setHt (d : List Element)
  | zsetZiplist (zl : List (Element × Score))
  | zsetSkiplist (d : List (Element × Score))
  | hashZiplist (zl : List (Element × Element))
  | hashHt (d : List (Element × Element))

variable {Score : Type}

def scoresOf (l : List (Element × Score)) : ScoreMap Score := l.foldl (fun z p => z.insert p.1.value p.2) ∅

def hashOf (l : List (Element × Element)) : Hash := l.foldl (fun h p => hashTypeSet h p.1.value p.2.value) ∅

@[grind =] def Obj.value : Obj Score → Value Score
  | .string o => .string o.value
  | .listZiplist l | .listLinked l => .list (l.map Element.value)
  | .setIntset is => .set (is.map fun v => (Element.int v).value).toFinset
  | .setHt d => .set (d.map Element.value).toFinset
  | .zsetZiplist l | .zsetSkiplist l => .zset (scoresOf l)
  | .hashZiplist l | .hashHt l => .hash (hashOf l)

/-- There are no empty lists, sets, sorted sets and hashes, and no member is there twice. -/
@[grind =] def Obj.Ok : Obj Score → Prop
  | .string _ => True
  | .listZiplist l | .listLinked l => l ≠ []
  | .setIntset is => is ≠ [] ∧ (is.map fun v => (Element.int v).value).Nodup
  | .setHt d => d ≠ [] ∧ (d.map Element.value).Nodup
  | .zsetZiplist l | .zsetSkiplist l => l ≠ [] ∧ (l.map fun p => p.1.value).Nodup
  | .hashZiplist l | .hashHt l => l ≠ [] ∧ (l.map fun p => p.1.value).Nodup

/-- A key with its value and the time it expires at, in milliseconds. -/
structure Entry (Score : Type) where
  key : Sds
  obj : Obj Score
  expire : Option Long

structure StoredDb (Score : Type) where
  entries : List (Entry Score)
  nodup : (entries.map Entry.key).Nodup
  ok : ∀ x ∈ entries, x.obj.Ok

def rioWriteBulkCount (mark : UInt8) (count : ℕ) : List UInt8 := (mark :: ll2string count) ++ crlf

def rioWriteBulkString (s : List UInt8) : List UInt8 := rioWriteBulkCount 36 s.length ++ (s ++ crlf)

def rioWriteBulkLongLong (v : ℤ) : List UInt8 := rioWriteBulkString (ll2string v)

/-- `rioWriteBulkObject`, and what is done with an entry of a ziplist. -/
def rioWriteBulkObject : Element → List UInt8
  | .str s => rioWriteBulkString s.1
  | .int v => rioWriteBulkLongLong v.1

/-- `rioWriteBulkDouble`, with `%.17g` as `print`. -/
def rioWriteBulkDouble (print : Score → Sds) (score : Score) : List UInt8 := rioWriteBulkString (print score).1

def itemsPerCmd : ℕ := 64

/-- The loop of `rewriteListObject`, and of the others: an item is `width` arguments long. `count` items are in the command that is
being written, and `items` are still to come. -/
@[grind =] def rewriteItems {Item : Type} (name : Sds) (key : Sds) (width : ℕ) (write : Item → List UInt8) : ℕ → ℕ → List Item → List UInt8
  | _, _, [] => []
  | count, items, x :: l =>
    (if count = 0 then
        let cmdItems := if itemsPerCmd < items then itemsPerCmd else items
        rioWriteBulkCount 42 (2 + cmdItems * width) ++ rioWriteBulkString name.1 ++ rioWriteBulkString key.1
      else []) ++
      write x ++ rewriteItems name key width write (if count + 1 = itemsPerCmd then 0 else count + 1) (items - 1) l

def rpushName : Sds := ⟨[82, 80, 85, 83, 72], by decide⟩

def saddName : Sds := ⟨[83, 65, 68, 68], by decide⟩

def zaddName : Sds := ⟨[90, 65, 68, 68], by decide⟩

def hmsetName : Sds := ⟨[72, 77, 83, 69, 84], by decide⟩

def pexpireatName : Sds := ⟨Aof.pexpireatName, by decide⟩

def selectName : Sds := ⟨Aof.selectName, by decide⟩

/-- `rewriteListObject`, of either encoding. -/
def rewriteListObject (key : Sds) (l : List Element) : List UInt8 := rewriteItems rpushName key 1 rioWriteBulkObject 0 l.length l

/-- `rewriteSetObject` of an intset. -/
def rewriteIntset (key : Sds) (is : List Long) : List UInt8 := rewriteItems saddName key 1 (fun v => rioWriteBulkLongLong v.1) 0 is.length is

/-- `rewriteSetObject` of a hash table. -/
def rewriteSetObject (key : Sds) (d : List Element) : List UInt8 := rewriteItems saddName key 1 rioWriteBulkObject 0 d.length d

/-- `rewriteSortedSetObject`, of either encoding. -/
def rewriteSortedSetObject (print : Score → Sds) (key : Sds) (l : List (Element × Score)) : List UInt8 :=
  rewriteItems zaddName key 2 (fun p => rioWriteBulkDouble print p.2 ++ rioWriteBulkObject p.1) 0 l.length l

/-- `rewriteHashObject`, of either encoding. -/
def rewriteHashObject (key : Sds) (l : List (Element × Element)) : List UInt8 :=
  rewriteItems hmsetName key 2 (fun p => rioWriteBulkObject p.1 ++ rioWriteBulkObject p.2) 0 l.length l

/-- The key and its value, in `rewriteAppendOnlyFile`. -/
@[grind =] def rewriteObject (print : Score → Sds) (key : Sds) : Obj Score → List UInt8
  | .string o => rioWriteBulkCount 42 3 ++ rioWriteBulkString setName.1 ++ rioWriteBulkString key.1 ++ rioWriteBulkObject o
  | .listZiplist l | .listLinked l => rewriteListObject key l
  | .setIntset is => rewriteIntset key is
  | .setHt d => rewriteSetObject key d
  | .zsetZiplist l | .zsetSkiplist l => rewriteSortedSetObject print key l
  | .hashZiplist l | .hashHt l => rewriteHashObject key l

/-- `getExpire`. -/
def Entry.expiretime (x : Entry Score) : ℤ := (x.expire.map Subtype.val).getD (-1)

/-- One round of the loop over the keys: the value, then the time to live, unless that is over at `now`. -/
def rewriteEntry (print : Score → Sds) (now : ℕ) (x : Entry Score) : List UInt8 :=
  rewriteObject print x.key x.obj ++
    if x.expiretime ≠ -1 then
      if x.expiretime < now then []
      else
        rioWriteBulkCount 42 3 ++ rioWriteBulkString pexpireatName.1 ++ rioWriteBulkString x.key.1 ++ rioWriteBulkLongLong x.expiretime
    else []

/-- The loop over the databases, from number `j` on. -/
@[grind =] def rewriteDbs (print : Score → Sds) (now : ℕ) : ℕ → List (StoredDb Score) → List UInt8
  | _, [] => []
  | j, db :: dbs =>
    (if db.entries = [] then []
      else rioWriteBulkCount 42 2 ++ rioWriteBulkString selectName.1 ++ rioWriteBulkLongLong j ++ db.entries.flatMap (rewriteEntry print now)) ++
      rewriteDbs print now (j + 1) dbs

/-- `rewriteAppendOnlyFile`: what it writes, the clock being at `now`. -/
def rewriteAppendOnlyFile (print : Score → Sds) (now : ℕ) (dbs : List (StoredDb Score)) : List UInt8 := rewriteDbs print now 0 dbs

def bytesOf (argv : List Sds) : List (List UInt8) := argv.map Subtype.val

@[grind =] def pieces {Item : Type} : ℕ → List Item → List (List Item)
  | 0, _ => []
  | n + 1, l => if l = [] then [] else l.take itemsPerCmd :: pieces n (l.drop itemsPerCmd)

def itemCommands {Item : Type} (name key : Sds) (args : Item → List Sds) (l : List Item) : List (List Sds) :=
  (pieces l.length l).map fun piece => name :: key :: piece.flatMap args

def scoreArgs (print : Score → Sds) (p : Element × Score) : List Sds := [print p.2, p.1.value]

def fieldArgs (p : Element × Element) : List Sds := [p.1.value, p.2.value]

@[grind =] def Obj.commands (print : Score → Sds) (key : Sds) : Obj Score → List (List Sds)
  | .string o => [[setName, key, o.value]]
  | .listZiplist l | .listLinked l => itemCommands rpushName key (fun x => [x.value]) l
  | .setIntset is => itemCommands saddName key (fun v => [(Element.int v).value]) is
  | .setHt d => itemCommands saddName key (fun x => [x.value]) d
  | .zsetZiplist l | .zsetSkiplist l => itemCommands zaddName key (scoreArgs print) l
  | .hashZiplist l | .hashHt l => itemCommands hmsetName key fieldArgs l

def Entry.written (now : ℕ) (x : Entry Score) : Option Long := x.expire.filter fun t => decide (t.1 ≠ -1 ∧ now ≤ t.1)

def Entry.commands (print : Score → Sds) (now : ℕ) (x : Entry Score) : List (List Sds) :=
  x.obj.commands print x.key ++
    match x.written now with
    | none => []
    | some t => [[pexpireatName, x.key, (Element.int t).value]]

def dbArg (j : ℕ) : Sds := createStringObjectFromLongLong j

/-- The commands for databases from number `j` on. -/
@[grind =] def dbCommands (print : Score → Sds) (now : ℕ) : ℕ → List (StoredDb Score) → List (List Sds)
  | _, [] => []
  | j, db :: dbs =>
    (if db.entries = [] then [] else [selectName, dbArg j] :: db.entries.flatMap (Entry.commands print now)) ++ dbCommands print now (j + 1) dbs

section Items

variable {Item : Type} {name key : Sds} {write : Item → List UInt8} {args : Item → List Sds} {width : ℕ}

theorem rioWriteBulkString_eq (s : List UInt8) : rioWriteBulkString s = encodeArg s := rfl

theorem encodeCommand_three (a b c : List UInt8) :
    encodeCommand [a, b, c] = rioWriteBulkCount 42 3 ++ rioWriteBulkString a ++ rioWriteBulkString b ++ rioWriteBulkString c := by
  rw [encodeCommand, encodeArgs_cons, encodeArgs_cons, encodeArgs_cons, rioWriteBulkCount]
  simp only [rioWriteBulkString_eq, append_assoc, encodeArgs, flatMap_nil, append_nil]
  rfl

theorem encodeCommand_two (a b : List UInt8) :
    encodeCommand [a, b] = rioWriteBulkCount 42 2 ++ rioWriteBulkString a ++ rioWriteBulkString b := by
  rw [encodeCommand, encodeArgs_cons, encodeArgs_cons, rioWriteBulkCount]
  simp only [rioWriteBulkString_eq, append_assoc, encodeArgs, flatMap_nil, append_nil]
  rfl

theorem encode_singleton (argv : List (List UInt8)) : encode [argv] = encodeCommand argv := append_nil _

theorem rioWriteBulkObject_eq (x : Element) : rioWriteBulkObject x = encodeArg x.value.1 := by
  cases x with
  | str s => rfl
  | int v => rfl

theorem encodeArgs_append (l l' : List (List UInt8)) : encodeArgs (l ++ l') = encodeArgs l ++ encodeArgs l' := flatMap_append

theorem rewriteItems_middle : ∀ (l : List Item) {count items : ℕ}, 0 < count → count < itemsPerCmd →
    rewriteItems name key width write count items l =
      (l.take (itemsPerCmd - count)).flatMap write ++ rewriteItems name key width write 0 (items - (itemsPerCmd - count)) (l.drop (itemsPerCmd - count)) := by
  intro l
  induction l with
  | nil =>
    intro count items _ _
    rw [take_nil, drop_nil]
    rfl
  | cons x l ih =>
    intro count items hpos hlt
    obtain ⟨m, hm⟩ : ∃ m, itemsPerCmd - count = m + 1 := ⟨itemsPerCmd - count - 1, by omega⟩
    rw [rewriteItems, if_neg (by omega), nil_append, hm, take_succ_cons, drop_succ_cons, flatMap_cons, append_assoc]
    congr 1
    by_cases hlast : count + 1 = itemsPerCmd
    · obtain rfl : m = 0 := by omega
      rw [if_pos hlast, take_zero, drop_zero]
      rfl
    · have hrest : itemsPerCmd - (count + 1) = m := by omega
      rw [if_neg hlast, ih (Nat.succ_pos _) (by omega), hrest]
      congr 2
      omega

/-- **The loop over the items** writes a command for every 64 of them. -/
theorem rewriteItems_eq (hwrite : ∀ x, write x = encodeArgs (bytesOf (args x))) (hwidth : ∀ x, (args x).length = width) : ∀ (n : ℕ) {l : List Item},
    l.length ≤ n →
    rewriteItems name key width write 0 l.length l = encode ((pieces n l).map fun piece => bytesOf (name :: key :: piece.flatMap args)) := by
  intro n
  induction n with
  | zero =>
    intro l hn
    obtain rfl := length_eq_zero_iff.1 (Nat.le_zero.1 hn)
    rfl
  | succ n ih =>
    intro l hn
    cases l with
    | nil => rfl
    | cons x l =>
      have hargs : ∀ l : List Item, encodeArgs (bytesOf (l.flatMap args)) = l.flatMap write := by
        intro l
        induction l with
        | nil => rfl
        | cons y l ihl =>
          rw [flatMap_cons, flatMap_cons, bytesOf, map_append, encodeArgs_append, hwrite y, ← ihl]
          rfl
      have hlength : ∀ l : List Item, (l.flatMap args).length = l.length * width := by
        intro l
        induction l with
        | nil => rw [flatMap_nil, length_nil, length_nil, Nat.zero_mul]
        | cons y l ihl => rw [flatMap_cons, length_append, hwidth, ihl, length_cons, Nat.succ_mul, Nat.add_comm]
      have hcount : (if itemsPerCmd < (x :: l).length then itemsPerCmd else (x :: l).length) = ((x :: l).take itemsPerCmd).length := by
        rw [length_take]
        by_cases hlt : itemsPerCmd < (x :: l).length
        · rw [if_pos hlt]
          omega
        · rw [if_neg hlt]
          omega
      have hrest : (x :: l).length - 1 - (itemsPerCmd - 1) = ((x :: l).drop itemsPerCmd).length := by
        rw [length_drop]
        have : itemsPerCmd = 64 := rfl
        omega
      have htake : (x :: l).take itemsPerCmd = x :: l.take (itemsPerCmd - 1) := rfl
      have hdrop : (x :: l).drop itemsPerCmd = l.drop (itemsPerCmd - 1) := rfl
      rw [pieces, if_neg (cons_ne_nil _ _), map_cons, encode_cons, rewriteItems, if_pos rfl]
      have hmiddle : rewriteItems name key width write (0 + 1) ((x :: l).length - 1) l = _ := rewriteItems_middle l (by decide) (by decide)
      have hshort : ((x :: l).drop itemsPerCmd).length ≤ n := by
        have hsize : itemsPerCmd = 64 := rfl
        rw [length_drop]
        omega
      have hfirst : ¬ 0 + 1 = itemsPerCmd := by decide
      rw [hcount, if_neg hfirst, hmiddle, Nat.zero_add, hrest, ← hdrop, ih hshort]
      have hcmd : encodeCommand (bytesOf (name :: key :: ((x :: l).take itemsPerCmd).flatMap args)) =
          rioWriteBulkCount 42 (2 + ((x :: l).take itemsPerCmd).length * width) ++ rioWriteBulkString name.1 ++ rioWriteBulkString key.1 ++
            ((x :: l).take itemsPerCmd).flatMap write := by
        have hlen : (bytesOf (name :: key :: ((x :: l).take itemsPerCmd).flatMap args)).length = 2 + ((x :: l).take itemsPerCmd).length * width := by
          rw [bytesOf, length_map, length_cons, length_cons, hlength]
          omega
        rw [encodeCommand, hlen, bytesOf, map_cons, map_cons, encodeArgs_cons, encodeArgs_cons, ← hargs, rioWriteBulkCount,
          rioWriteBulkString_eq, rioWriteBulkString_eq, bytesOf]
        simp only [append_assoc]
      rw [hcmd, htake, flatMap_cons]
      simp only [append_assoc]

end Items

variable {print : Score → Sds} {now : ℕ}

theorem ll2string_bmod {v : ℤ} (hlow : -2 ^ 63 ≤ v) (hhigh : v < 2 ^ 63) : createStringObjectFromLongLong v = (Element.int ⟨v, hlow, hhigh⟩).value := by
  apply Subtype.ext
  show ll2string (v.bmod (2 ^ 64)) = ll2string v
  rw [Int.bmod_eq_of_le (by omega) (by omega)]

theorem rewriteItems_commands {Item : Type} {name key : Sds} {write : Item → List UInt8} {args : Item → List Sds} {width : ℕ}
    (hwrite : ∀ x, write x = encodeArgs (bytesOf (args x))) (hwidth : ∀ x, (args x).length = width) (l : List Item) :
    rewriteItems name key width write 0 l.length l = encode ((itemCommands name key args l).map bytesOf) := by
  rw [rewriteItems_eq hwrite hwidth _ (Nat.le_refl _), itemCommands, List.map_map]
  rfl

theorem rewriteObject_commands (key : Sds) (o : Obj Score) : rewriteObject print key o = encode ((o.commands print key).map bytesOf) := by
  have helement : ∀ x : Element, rioWriteBulkObject x = encodeArgs (bytesOf [x.value]) := by
    intro x
    rw [rioWriteBulkObject_eq, bytesOf, map_singleton, encodeArgs_cons]
    exact (append_nil _).symm
  have hint : ∀ v : Long, rioWriteBulkLongLong v.1 = encodeArgs (bytesOf [(Element.int v).value]) := fun v => helement (.int v)
  have hscore : ∀ p : Element × Score, rioWriteBulkDouble print p.2 ++ rioWriteBulkObject p.1 = encodeArgs (bytesOf (scoreArgs print p)) := by
    intro p
    rw [helement, scoreArgs, bytesOf, map_cons, encodeArgs_cons]
    rfl
  have hfield : ∀ p : Element × Element, rioWriteBulkObject p.1 ++ rioWriteBulkObject p.2 = encodeArgs (bytesOf (fieldArgs p)) := by
    intro p
    rw [helement p.2, rioWriteBulkObject_eq, fieldArgs, bytesOf, map_cons, encodeArgs_cons]
    rfl
  cases o with
  | string x =>
    rw [rewriteObject, rioWriteBulkObject_eq, Obj.commands, map_singleton, encode_singleton]
    exact (encodeCommand_three setName.1 key.1 x.value.1).symm
  | listZiplist l => exact rewriteItems_commands helement (fun _ => rfl) l
  | listLinked l => exact rewriteItems_commands helement (fun _ => rfl) l
  | setIntset is => exact rewriteItems_commands hint (fun _ => rfl) is
  | setHt d => exact rewriteItems_commands helement (fun _ => rfl) d
  | zsetZiplist l => exact rewriteItems_commands hscore (fun _ => rfl) l
  | zsetSkiplist l => exact rewriteItems_commands hscore (fun _ => rfl) l
  | hashZiplist l => exact rewriteItems_commands hfield (fun _ => rfl) l
  | hashHt l => exact rewriteItems_commands hfield (fun _ => rfl) l

theorem rewriteEntry_commands (x : Entry Score) : rewriteEntry print now x = encode ((x.commands print now).map bytesOf) := by
  rw [rewriteEntry, Entry.commands, map_append, encode_append, rewriteObject_commands, Entry.expiretime, Entry.written]
  congr 1
  cases x.expire with
  | none =>
    rfl
  | some t =>
    rw [map_some, getD_some, filter_some]
    -- written, unless it is the mark for none, or over
    by_cases hnone : t.1 = -1
    · rw [if_neg (not_not.2 hnone), if_neg (by simp [hnone])]
      rfl
    rw [if_pos hnone]
    by_cases hover : t.1 < now
    · rw [if_pos hover, if_neg (by simp [hover])]
      rfl
    · have hwritten : decide (t.1 ≠ -1 ∧ (now : ℤ) ≤ t.1) = true := decide_eq_true ⟨hnone, not_lt.1 hover⟩
      rw [if_neg hover, if_pos hwritten]
      rw [map_singleton, encode_singleton]
      exact (encodeCommand_three pexpireatName.1 x.key.1 (ll2string t.1)).symm

theorem rewriteDbs_commands : ∀ (dbs : List (StoredDb Score)) {j : ℕ}, j + dbs.length < 2 ^ 31 →
    rewriteDbs print now j dbs = encode ((dbCommands print now j dbs).map bytesOf) := by
  intro dbs
  induction dbs with
  | nil =>
    intro j _
    rfl
  | cons db dbs ih =>
    intro j hj
    rw [length_cons] at hj
    rw [rewriteDbs, dbCommands, map_append, encode_append, ih (by omega)]
    congr 1
    by_cases hempty : db.entries = []
    · rw [if_pos hempty, if_pos hempty]
      rfl
    · have hentries : ∀ l : List (Entry Score), l.flatMap (rewriteEntry print now) = encode ((l.flatMap (Entry.commands print now)).map bytesOf) := by
        intro l
        induction l with
        | nil => rfl
        | cons x l ihl => rw [flatMap_cons, flatMap_cons, map_append, encode_append, ihl, rewriteEntry_commands]
      have harg : (dbArg j).1 = ll2string j := by
        rw [dbArg, ll2string_bmod (by omega) (by omega)]
        rfl
      have hselect : encodeCommand (bytesOf [selectName, dbArg j]) =
          rioWriteBulkCount 42 2 ++ rioWriteBulkString selectName.1 ++ rioWriteBulkLongLong j := by
        rw [rioWriteBulkLongLong, ← harg]
        exact encodeCommand_two selectName.1 (dbArg j).1
      rw [if_neg hempty, if_neg hempty, map_cons, encode_cons, hentries, hselect]

end KVStores.Redis
