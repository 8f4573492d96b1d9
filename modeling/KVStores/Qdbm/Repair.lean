import KVStores.Lib.Coding
import KVStores.Qdbm.Export

/-!
# The scan of `dprepair`

`dprepair` (`depot.c`) goes through a file that may hold anything, from record to record by the sizes in their headers.

* `dprepair_iff`: **the scan ends, and goes forward without a negative offset, exactly when the file is `Sound`.**

The calls of `read` give all bytes that there are. What `dprepair` does behind the scan is left out.
-/

namespace KVStores.Qdbm

/-- An `int` of the file. -/
@[irreducible] def readInt (file : Bytes) (off : ℕ) : ℤ := (ofLittleEndian ((file.drop off).take 4) : ℤ).bmod (2 ^ 32)

/-- What comes of `dpseekread`: a negative offset is against its assertion. -/
inductive SeekRead
  | negative
  | failed
  | read (off : ℕ)
deriving DecidableEq

/-- `dpseekread` of so many bytes. -/
def seekRead (file : Bytes) (off : ℤ) (size : ℕ) : SeekRead :=
  if off < 0 then .negative else if size = 0 ∨ off.toNat + size ≤ file.length then .read off.toNat else .failed

/-- The header of a record, as far as `dprepair` looks at it. -/
structure RecordHead where
  flags : ℤ
  ksiz : ℤ
  vsiz : ℤ
  psiz : ℤ
deriving DecidableEq

def headAt (file : Bytes) (off : ℕ) : RecordHead := ⟨readInt file off, readInt file (off + 8), readInt file (off + 12), readInt file (off + 16)⟩

/-- `DP_RECFDEL` is set. -/
def RecordHead.deleted (head : RecordHead) : Bool := decide (head.flags % 2 = 1)

/-- `dprecsize`: the sum of a `size_t` and three `int`s, cut to an `int`. -/
def dprecsize (head : RecordHead) : ℤ := (28 + head.ksiz + head.vsiz + head.psiz).bmod (2 ^ 32)

variable {Db : Type}

/-- What `dprepair` depends on besides the file: whether `malloc` succeeds, and `dpput` into the new database. -/
structure RepairSystem (Db : Type) where
  malloc : ℤ → Bool
  dpput : Db → Bytes → Bytes → Db × Bool

/-- The state of the loop: `off`, the new database, and `err`. -/
structure Scan (Db : Type) where
  off : ℤ
  tdepot : Db
  err : Bool

/-- One round of the loop: it reads at a negative offset, it leaves the loop, or it goes on. -/
inductive Round (Db : Type)
  | negative
  | stop (s : Scan Db)
  | next (s : Scan Db)

/-- The file size in an `int`. -/
def fsiz (file : Bytes) : ℤ := (file.length : ℤ).bmod (2 ^ 32)

/-- A live record is put into the new database; `none` is a read at a negative offset. The offsets of the key and the value are cut to an `int`. -/
def repairRecord (sys : RepairSystem Db) (file : Bytes) (head : RecordHead) (s : Scan Db) : Option (Scan Db) :=
  if 0 ≤ head.ksiz ∧ 0 ≤ head.vsiz then
    if sys.malloc (head.ksiz + 1) = true ∧ sys.malloc (head.vsiz + 1) = true then
      match seekRead file ((s.off + 28).bmod (2 ^ 32)) head.ksiz.toNat with
      | .negative => none
      | .failed => some { s with err := true }
      | .read koff =>
        match seekRead file ((s.off + 28 + head.ksiz).bmod (2 ^ 32)) head.vsiz.toNat with
        | .negative => none
        | .failed => some { s with err := true }
        | .read voff =>
          let r := sys.dpput s.tdepot ((file.drop koff).take head.ksiz.toNat) ((file.drop voff).take head.vsiz.toNat)
          some { s with tdepot := r.1, err := s.err || !r.2 }
    else some { s with err := true }
  else some { s with err := true }

def advance (head : RecordHead) (s : Scan Db) : Round Db :=
  if dprecsize head < 0 then .stop s else .next { s with off := (s.off + dprecsize head).bmod (2 ^ 32) }

/-- One round, when `off` is below `fsiz`. -/
def repairRound (sys : RepairSystem Db) (file : Bytes) (s : Scan Db) : Round Db :=
  match seekRead file s.off 28 with
  | .negative => .negative
  | .failed => .stop s
  | .read off =>
    if (headAt file off).deleted = true then advance (headAt file off) s
    else (repairRecord sys file (headAt file off) s).elim .negative (advance (headAt file off))

/-- The loop, for so many rounds at most; `none` is one that is still going on. -/
@[grind =] def repairLoop (sys : RepairSystem Db) (file : Bytes) : ℕ → Scan Db → Option (Round Db)
  | 0, _ => none
  | fuel + 1, s =>
    if s.off < fsiz file then
      match repairRound sys file s with
      | .negative => some .negative
      | .stop s => some (.stop s)
      | .next s => repairLoop sys file fuel s
    else some (.stop s)

/-- Where the scan begins: behind as many buckets as the header says. -/
def firstOff (file : Bytes) : ℤ := (48 + readInt file 32 * 4).bmod (2 ^ 32)

/-- The scan of `dprepair`, with the new database; a file without a header is not scanned. -/
def dprepair (sys : RepairSystem Db) (file : Bytes) (tdepot : Db) (fuel : ℕ) : Option (Round Db) :=
  if file.length < 48 then some (.stop ⟨0, tdepot, true⟩) else repairLoop sys file fuel ⟨firstOff file, tdepot, false⟩

inductive Scanned (sys : RepairSystem Db) (file : Bytes) (tdepot : Db) : Scan Db → Prop
  | start (h : 48 ≤ file.length) : Scanned sys file tdepot ⟨firstOff file, tdepot, false⟩
  | next {s s' : Scan Db} (h : Scanned sys file tdepot s) (hin : s.off < fsiz file) (hround : repairRound sys file s = .next s') :
    Scanned sys file tdepot s'

/-- **A right scan** ends, and in no round it reads at a negative offset or does not go forward. -/
structure RepairRight (sys : RepairSystem Db) (file : Bytes) (tdepot : Db) : Prop where
  ends : ∃ fuel r, dprepair sys file tdepot fuel = some r
  forward : ∀ s, Scanned sys file tdepot s → s.off < fsiz file →
    repairRound sys file s ≠ .negative ∧ ∀ s', repairRound sys file s = .next s' → s.off < s'.off

/-- The chain of the sizes, from the end of the buckets on. -/
inductive Records (file : Bytes) : ℤ → Prop
  | first (h : 48 ≤ file.length) : Records file (firstOff file)
  | next {off : ℕ} (h : Records file off) (hin : (off : ℤ) < fsiz file) (hhead : off + 28 ≤ file.length) (hsize : 0 ≤ dprecsize (headAt file off)) :
    Records file (off + dprecsize (headAt file off))

/-- The offsets of the key and the value, as far as they are read, are in the range of an `int`. -/
def EntityInRange (malloc : ℤ → Bool) (file : Bytes) (head : RecordHead) (off : ℕ) : Prop :=
  head.deleted = false → 0 ≤ head.ksiz → 0 ≤ head.vsiz → malloc (head.ksiz + 1) = true → malloc (head.vsiz + 1) = true →
    off + 28 < 2 ^ 31 ∧ (head.ksiz = 0 ∨ off + 28 + head.ksiz ≤ file.length → off + 28 + head.ksiz < 2 ^ 31)

/-- A header that does not lead the scan astray: its size is not 0, and the offsets of the key, of the value and of what is behind stay in range. -/
structure SoundHead (malloc : ℤ → Bool) (file : Bytes) (off : ℕ) : Prop where
  size : dprecsize (headAt file off) ≠ 0
  behind : off + dprecsize (headAt file off) < 2 ^ 31
  entity : EntityInRange malloc file (headAt file off) off

/-- **A file that can be scanned**: the buckets do not end before the file begins, and every header that the chain comes to is sound. -/
structure Sound (malloc : ℤ → Bool) (file : Bytes) : Prop where
  first : 48 ≤ file.length → firstOff file < fsiz file → 0 ≤ firstOff file
  heads : ∀ off : ℕ, Records file off → (off : ℤ) < fsiz file → off + 28 ≤ file.length → SoundHead malloc file off

variable {sys : RepairSystem Db} {file : Bytes} {tdepot : Db} {s s' : Scan Db} {off : ℕ} {x : ℤ}

theorem bmod_int (h0 : 0 ≤ x) (h : x < 2 ^ 32) : x.bmod (2 ^ 32) = if x < 2 ^ 31 then x else x - 2 ^ 32 := by
  rw [Int.bmod_def]
  split <;> split <;> omega

theorem bmod_int_lt (x : ℤ) : x.bmod (2 ^ 32) < 2 ^ 31 := by
  rw [Int.bmod_def]
  split <;> omega

theorem readInt_lt (file : Bytes) (off : ℕ) : readInt file off < 2 ^ 31 := by
  unfold readInt
  exact bmod_int_lt _

theorem headAt_ksiz_lt (file : Bytes) (off : ℕ) : (headAt file off).ksiz < 2 ^ 31 := readInt_lt file (off + 8)

theorem fsiz_lt (file : Bytes) : fsiz file < 2 ^ 31 := bmod_int_lt _

theorem dprecsize_lt (head : RecordHead) : dprecsize head < 2 ^ 31 := bmod_int_lt _

theorem seekRead_eq (h0 : 0 ≤ x) (h : x < 2 ^ 32) (size : ℕ) : seekRead file (x.bmod (2 ^ 32)) size =
      if 2 ^ 31 ≤ x then .negative else if size = 0 ∨ x + size ≤ file.length then .read x.toNat else .failed := by
  rw [bmod_int h0 h, seekRead]
  by_cases hbig : 2 ^ 31 ≤ x
  · have hnot : ¬ x < 2 ^ 31 := by omega
    have hneg : x - 2 ^ 32 < 0 := by omega
    rw [if_pos hbig, if_neg hnot, if_pos hneg]
  · have hlt : x < 2 ^ 31 := by omega
    have hpos : ¬ x < 0 := by omega
    have hfits : size = 0 ∨ x.toNat + size ≤ file.length ↔ size = 0 ∨ x + size ≤ file.length := by omega
    rw [if_neg hbig, if_pos hlt, if_neg hpos]
    exact if_congr hfits rfl rfl

variable {head : RecordHead}

/-- **A live record**: unless an offset leaves the range of an `int`, it is put, or an error is noted. -/
theorem repairRecord_spec (sys : RepairSystem Db) (file : Bytes) (hksiz : head.ksiz < 2 ^ 31) (hs : s.off = off) (hoff : off < 2 ^ 31) (hdeleted : head.deleted = false) :
    (¬ EntityInRange sys.malloc file head off ∧ repairRecord sys file head s = none) ∨
      (EntityInRange sys.malloc file head off ∧ ∃ s₁, repairRecord sys file head s = some s₁ ∧ s₁.off = off) := by
  unfold EntityInRange
  rw [repairRecord]
  by_cases hsizes : 0 ≤ head.ksiz ∧ 0 ≤ head.vsiz
  · rw [if_pos hsizes]
    by_cases hmalloc : sys.malloc (head.ksiz + 1) = true ∧ sys.malloc (head.vsiz + 1) = true
    · rw [if_pos hmalloc, hs, seekRead_eq (by omega) (by omega)]
      by_cases hkey : 2 ^ 31 ≤ (off : ℤ) + 28
      · rw [if_pos hkey]
        refine Or.inl ⟨fun h => ?_, rfl⟩
        have hrange := (h hdeleted hsizes.1 hsizes.2 hmalloc.1 hmalloc.2).1
        omega
      rw [if_neg hkey]
      by_cases hread : head.ksiz.toNat = 0 ∨ (off : ℤ) + 28 + head.ksiz.toNat ≤ file.length
      · rw [if_pos hread]
        dsimp only
        rw [seekRead_eq (by omega) (by omega)]
        by_cases hvalue : 2 ^ 31 ≤ (off : ℤ) + 28 + head.ksiz
        · rw [if_pos hvalue]
          refine Or.inl ⟨fun h => ?_, rfl⟩
          have hrange := (h hdeleted hsizes.1 hsizes.2 hmalloc.1 hmalloc.2).2 (by omega)
          omega
        · rw [if_neg hvalue]
          refine Or.inr ⟨fun _ _ _ _ _ => ⟨by omega, fun _ => by omega⟩, ?_⟩
          by_cases hin : head.vsiz.toNat = 0 ∨ (off : ℤ) + 28 + head.ksiz + head.vsiz.toNat ≤ file.length
          · rw [if_pos hin]
            exact ⟨_, rfl, rfl⟩
          · rw [if_neg hin]
            exact ⟨_, rfl, rfl⟩
      · rw [if_neg hread]
        exact Or.inr ⟨fun _ _ _ _ _ => ⟨by omega, fun h => by omega⟩, _, rfl, rfl⟩
    · rw [if_neg hmalloc]
      exact Or.inr ⟨fun _ _ _ hk hv => absurd ⟨hk, hv⟩ hmalloc, _, rfl, hs⟩
  · rw [if_neg hsizes]
    exact Or.inr ⟨fun _ hk hv => absurd ⟨hk, hv⟩ hsizes, _, rfl, hs⟩

/-- **A record**: an offset of its entity is out of range, or the scan goes on by its size. -/
theorem record_cases (sys : RepairSystem Db) (file : Bytes) (hksiz : head.ksiz < 2 ^ 31) (hs : s.off = off) (hoff : off < 2 ^ 31) {r : Round Db}
    (hr : r = if head.deleted = true then advance head s else (repairRecord sys file head s).elim .negative (advance head)) :
    (¬ EntityInRange sys.malloc file head off ∧ r = .negative) ∨ (EntityInRange sys.malloc file head off ∧ ∃ s₁ : Scan Db, s₁.off = off ∧ r = advance head s₁) := by
  rw [hr]
  by_cases hdeleted : head.deleted = true
  · rw [if_pos hdeleted]
    have hrange : EntityInRange sys.malloc file head off := by
      intro hlive
      rw [hdeleted] at hlive
      cases hlive
    exact Or.inr ⟨hrange, s, hs, rfl⟩
  · rw [if_neg hdeleted]
    obtain ⟨hbad, hnone⟩ | ⟨hgood, s₁, hsome, hs₁⟩ := repairRecord_spec sys file hksiz hs hoff (Bool.eq_false_iff.2 hdeleted)
    · rw [hnone]
      exact Or.inl ⟨hbad, rfl⟩
    · rw [hsome]
      exact Or.inr ⟨hgood, s₁, hs₁, rfl⟩

/-- **One round**: there is no header, an entity is out of range, or the offset goes on by the size of the record. -/
theorem repairRound_cases (sys : RepairSystem Db) (file : Bytes) (hs : s.off = off) (hoff : off < 2 ^ 31) :
    (file.length < off + 28 ∧ repairRound sys file s = .stop s) ∨
      (off + 28 ≤ file.length ∧ ¬ EntityInRange sys.malloc file (headAt file off) off ∧ repairRound sys file s = .negative) ∨
      (off + 28 ≤ file.length ∧ EntityInRange sys.malloc file (headAt file off) off ∧
        ∃ s₁ : Scan Db, s₁.off = off ∧ repairRound sys file s = advance (headAt file off) s₁) := by
  have hseek : seekRead file s.off 28 = if off + 28 ≤ file.length then .read off else .failed := by
    rw [hs, seekRead, if_neg (by omega)]
    exact if_congr (or_iff_right (by omega)) rfl rfl
  by_cases hhead : off + 28 ≤ file.length
  · rw [if_pos hhead] at hseek
    have hround : repairRound sys file s = if (headAt file off).deleted = true then advance (headAt file off) s
        else (repairRecord sys file (headAt file off) s).elim .negative (advance (headAt file off)) := by
      unfold repairRound
      rw [hseek]
    exact Or.inr ((record_cases sys file (headAt_ksiz_lt file off) hs hoff hround).imp (And.intro hhead) (And.intro hhead))
  · rw [if_neg hhead] at hseek
    have hround : repairRound sys file s = .stop s := by
      unfold repairRound
      rw [hseek]
    exact Or.inl ⟨Nat.lt_of_not_le hhead, hround⟩

theorem advance_off (hs : s.off = off) (hoff : off < 2 ^ 31) (h : advance head s = .next s') :
    0 ≤ dprecsize head ∧ s'.off = if off + dprecsize head < 2 ^ 31 then off + dprecsize head else off + dprecsize head - 2 ^ 32 := by
  have hlt := dprecsize_lt head
  rw [advance] at h
  by_cases hneg : dprecsize head < 0
  · rw [if_pos hneg] at h
    cases h
  · rw [if_neg hneg] at h
    cases h
    refine ⟨by omega, ?_⟩
    dsimp only
    rw [hs, bmod_int (by omega) (by omega)]

/-- **A round goes forward exactly when the header is sound.** -/
theorem repairRound_forward (sys : RepairSystem Db) (file : Bytes) (hs : s.off = off) (hoff : off < 2 ^ 31) :
    (repairRound sys file s ≠ .negative ∧ ∀ s', repairRound sys file s = .next s' → s.off < s'.off) ↔
      (off + 28 ≤ file.length → SoundHead sys.malloc file off) := by
  obtain ⟨hshort, hround⟩ | ⟨hhead, hbad, hround⟩ | ⟨hhead, hgood, s₁, hs₁, hround⟩ := repairRound_cases sys file hs hoff
  · rw [hround]
    refine iff_of_true ⟨(by intro h; cases h), (by intro s' h; cases h)⟩ fun h => ?_
    omega
  · rw [hround]
    exact iff_of_false (fun h => h.1 rfl) fun h => hbad (h hhead).entity
  · rw [hround, forall_prop_of_true hhead]
    have hlt := dprecsize_lt (headAt file off)
    constructor
    · rintro ⟨-, hforward⟩
      by_cases hneg : dprecsize (headAt file off) < 0
      · exact ⟨by omega, by omega, hgood⟩
      have hnext : advance (headAt file off) s₁ = .next { s₁ with off := (s₁.off + dprecsize (headAt file off)).bmod (2 ^ 32) } := if_neg hneg
      have hmore := hforward _ hnext
      rw [(advance_off hs₁ hoff hnext).2, hs] at hmore
      split at hmore
      · exact ⟨by omega, by omega, hgood⟩
      · omega
    · intro hsound
      have hsize := hsound.size
      have hbehind := hsound.behind
      constructor
      · rw [advance]
        split <;> exact fun h => by cases h
      · intro s' hnext
        obtain ⟨hpos, hoff'⟩ := advance_off hs₁ hoff hnext
        rw [if_pos hbehind] at hoff'
        omega

theorem repairRound_negative (hneg : s.off < 0) : repairRound sys file s = .negative := by
  rw [repairRound, seekRead, if_pos hneg]

theorem off_cast (h0 : 0 ≤ s.off) (hin : s.off < fsiz file) : s.off = (s.off.toNat : ℤ) ∧ s.off.toNat < 2 ^ 31 := by
  have hlt := fsiz_lt file
  omega

/-- **While the scan is right, it comes to all records of the chain.** -/
theorem records_scanned (hright : RepairRight sys file tdepot) (h : Records file x) : ∃ s, Scanned sys file tdepot s ∧ s.off = x := by
  induction h with
  | first h => exact ⟨_, .start h, rfl⟩
  | @next off h hin hhead hsize ih =>
    obtain ⟨s, hs, hoff⟩ := ih
    have hin' : s.off < fsiz file := lt_of_eq_of_lt hoff hin
    have hlt := fsiz_lt file
    have hsmall : off < 2 ^ 31 := by omega
    have hforward := hright.forward s hs hin'
    have hsound := (repairRound_forward sys file hoff hsmall).1 hforward hhead
    obtain ⟨hshort, -⟩ | ⟨-, hbad, -⟩ | ⟨-, -, s₁, hs₁, hround⟩ := repairRound_cases sys file hoff hsmall
    · omega
    · exact absurd hsound.entity hbad
    · have hnext : advance (headAt file off) s₁ = .next { s₁ with off := (s₁.off + dprecsize (headAt file off)).bmod (2 ^ 32) } := if_neg (by omega)
      have hoff' := (advance_off hs₁ hsmall hnext).2
      rw [if_pos hsound.behind] at hoff'
      exact ⟨_, .next hs hin' (hround.trans hnext), hoff'⟩

/-- **In a sound file the scan stays on the chain.** -/
theorem scanned_records (hsound : Sound sys.malloc file) (h : Scanned sys file tdepot s) : Records file s.off ∧ (s.off < fsiz file → 0 ≤ s.off) := by
  induction h with
  | start h => exact ⟨.first h, hsound.first h⟩
  | @next s s' h hin hround ih =>
    obtain ⟨hoff, hsmall⟩ := off_cast (ih.2 hin) hin
    have hrec := ih.1
    generalize s.off.toNat = off at hoff hsmall
    obtain ⟨-, hstop⟩ | ⟨-, -, hneg⟩ | ⟨hhead, -, s₁, hs₁, hadvance⟩ := repairRound_cases sys file hoff hsmall
    · rw [hstop] at hround
      cases hround
    · rw [hneg] at hround
      cases hround
    · rw [hadvance] at hround
      rw [hoff] at hrec hin
      obtain ⟨hsize, hoff'⟩ := advance_off hs₁ hsmall hround
      rw [if_pos (hsound.heads off hrec hin hhead).behind] at hoff'
      rw [hoff']
      exact ⟨.next hrec hin hhead hsize, fun _ => by omega⟩

theorem repairLoop_ends (hforward : ∀ s, Scanned sys file tdepot s → s.off < fsiz file → ∀ s', repairRound sys file s = .next s' → s.off < s'.off) :
    ∀ (left : ℕ) (s : Scan Db), Scanned sys file tdepot s → (fsiz file - s.off).toNat < left → ∃ r, repairLoop sys file left s = some r := by
  intro left
  induction left with
  | zero => exact fun s _ hleft => absurd hleft (Nat.not_lt_zero _)
  | succ left ih =>
    intro s hs hleft
    rw [repairLoop]
    by_cases hin : s.off < fsiz file
    · rw [if_pos hin]
      cases hround : repairRound sys file s with
      | negative => exact ⟨_, rfl⟩
      | stop s' => exact ⟨_, rfl⟩
      | next s' =>
        have hmore := hforward s hs hin s' hround
        exact ih s' (.next hs hin hround) (by omega)
    · rw [if_neg hin]
      exact ⟨_, rfl⟩

theorem dprepair_iff (sys : RepairSystem Db) (file : Bytes) (tdepot : Db) : RepairRight sys file tdepot ↔ Sound sys.malloc file := by
  constructor
  · intro hright
    refine ⟨fun hlen hin => ?_, fun off hrec hin => ?_⟩
    · by_contra hneg
      exact (hright.forward _ (.start hlen) hin).1 (repairRound_negative (lt_of_not_ge hneg))
    · obtain ⟨s, hs, hoff⟩ := records_scanned hright hrec
      have hlt := fsiz_lt file
      exact (repairRound_forward sys file hoff (by omega)).1 (hright.forward s hs (lt_of_eq_of_lt hoff hin))
  · intro hsound
    have hforward : ∀ s, Scanned sys file tdepot s → s.off < fsiz file →
        repairRound sys file s ≠ .negative ∧ ∀ s', repairRound sys file s = .next s' → s.off < s'.off := by
      intro s hs hin
      obtain ⟨hrec, hpos⟩ := scanned_records hsound hs
      obtain ⟨hoff, hsmall⟩ := off_cast (hpos hin) hin
      rw [hoff] at hrec
      exact (repairRound_forward sys file hoff hsmall).2 (hsound.heads _ hrec (by omega))
    refine ⟨?_, hforward⟩
    by_cases hlen : file.length < 48
    · exact ⟨0, _, if_pos hlen⟩
    · obtain ⟨r, hr⟩ := repairLoop_ends (fun s hs hin => (hforward s hs hin).2) ((fsiz file - firstOff file).toNat + 1) _ (.start (Nat.le_of_not_lt hlen))
        (Nat.lt_succ_self _)
      exact ⟨_, r, (if_neg hlen).trans hr⟩

/-- A header with one bucket, the bucket, and a record that is deleted and has a padding of -28 bytes. -/
def standstill : Bytes :=
  List.replicate 32 0 ++ [1] ++ List.replicate 15 0 ++ List.replicate 4 0 ++ [1, 0, 0, 0] ++ List.replicate 12 0 ++ [228, 255, 255, 255] ++ List.replicate 8 0

/-- **The scan stands still** at a record whose sizes make up 0 with its header. -/
theorem dprepair_standstill (fuel : ℕ) : dprepair (⟨fun _ => true, fun d _ _ => (d, true)⟩ : RepairSystem Unit) standstill () fuel = none := by
  have hfirst : firstOff standstill = 52 := by decide +kernel
  have hlen : standstill.length = 80 := by decide
  have hsiz : fsiz standstill = 80 := by decide
  have hdeleted : (headAt standstill 52).deleted = true := by decide +kernel
  have hsize : dprecsize (headAt standstill 52) = 0 := by decide +kernel
  have hloop : ∀ (fuel : ℕ) (s : Scan Unit), s.off = 52 → repairLoop ⟨fun _ => true, fun d _ _ => (d, true)⟩ standstill fuel s = none := by
    intro fuel
    induction fuel with
    | zero => exact fun _ _ => rfl
    | succ fuel ih =>
      intro s hs
      have hseek : seekRead standstill s.off 28 = .read 52 := by
        rw [hs, seekRead, hlen]
        rfl
      rw [repairLoop, hsiz, if_pos (by omega), repairRound, hseek]
      dsimp only
      rw [if_pos hdeleted, advance, hsize, if_neg (by omega)]
      refine ih _ ?_
      dsimp only
      rw [hs]
      rfl
  rw [dprepair, if_neg (by omega)]
  exact hloop fuel _ hfirst

theorem standstill_wrong : ¬ RepairRight (⟨fun _ => true, fun d _ _ => (d, true)⟩ : RepairSystem Unit) standstill () := by
  intro hright
  obtain ⟨fuel, r, hr⟩ := hright.ends
  rw [dprepair_standstill] at hr
  cases hr

end KVStores.Qdbm
