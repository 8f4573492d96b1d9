import KVStores.Redis.Protocol
import KVStores.Redis.Query

/-!
# Requests on the wire

The loop raises an error by itself when it stops in front of the length of an argument and there are more than 64 KB in the
buffer, however long ago they were taken off; `bulkLoopTame` says that it does not come to this.
-/

namespace KVStores.Redis.Query

open List Option

open Protocol

/-- What a client may send: 1 to 2^20 arguments of up to 512 MB each. -/
def Sendable (args : List (List UInt8)) : Prop :=
  0 < args.length ∧ args.length ≤ 1024 * 1024 ∧ ∀ arg ∈ args, arg.length ≤ 512 * 1024 * 1024

variable {h b fut x : List UInt8}

theorem strchr_line : ∀ {h b : List UInt8}, (13 : UInt8) ∉ h → (0 : UInt8) ∉ h → b ++ fut = h ++ 13 :: x →
    strchr 13 b = if b.length ≤ h.length then none else some h.length := by
  intro h
  induction h with
  | nil =>
    intro b _ _ heq
    cases b with
    | nil => rfl
    | cons a b =>
      obtain ⟨rfl, -⟩ := List.cons.inj heq
      rfl
  | cons a h ih =>
    intro b hcr hnul heq
    rw [mem_cons, not_or] at hcr hnul
    cases b with
    | nil =>
      rw [strchr, length_nil, if_pos (Nat.zero_le _)]
    | cons a' b =>
      obtain ⟨rfl, htail⟩ := List.cons.inj heq
      rw [strchr, if_neg (Ne.symm hcr.1), if_neg (Ne.symm hnul.1), ih hcr.2 hnul.2 htail]
      by_cases hle : b.length ≤ h.length
      · rw [if_pos hle, if_pos (by simpa using hle)]
        rfl
      · rw [if_neg hle, if_neg (by simpa using hle)]
        rfl

variable {querybuf : List UInt8}

theorem readLine_line {pos : ℕ} (hpos : pos ≤ querybuf.length) (hcr : (13 : UInt8) ∉ h) (hnul : (0 : UInt8) ∉ h)
    (heq : querybuf.drop pos ++ fut = h ++ crlf ++ x) : (querybuf.length - pos ≤ h.length ∧ readLine querybuf pos = .missing) ∨
      (querybuf.length - pos = h.length + 1 ∧ readLine querybuf pos = .cut) ∨
      (h.length + 2 ≤ querybuf.length - pos ∧ readLine querybuf pos = .whole (pos + h.length) ∧
        (querybuf.drop pos).take h.length = h ∧ querybuf.drop (pos + h.length + 2) ++ fut = x) := by
  rw [append_assoc] at heq
  have hfound := strchr_line hcr hnul (heq.trans (by rfl : _ = h ++ 13 :: (10 :: x)))
  rw [length_drop] at hfound
  rw [readLine, hfound]
  by_cases hle : querybuf.length - pos ≤ h.length
  · left
    rw [if_pos hle]
    exact ⟨hle, rfl⟩
  rw [if_neg hle]
  dsimp only
  by_cases hcut : pos + h.length + 2 > querybuf.length
  · right; left
    rw [if_pos hcut]
    exact ⟨by omega, rfl⟩
  right; right
  rw [if_neg hcut]
  refine ⟨by omega, rfl, ?_, ?_⟩
  · have h1 := congrArg (List.take h.length) heq
    rwa [take_append_of_le_length (by rw [length_drop]; omega), take_left] at h1
  · have h1 := congrArg (List.drop (h.length + 2)) heq
    rw [drop_append_of_le_length (by rw [length_drop]; omega), drop_drop] at h1
    rw [Nat.add_assoc, h1, drop_append]
    simp [crlf]

/-- In the middle of the command `args`: what is in `argv` has been taken off, and `own` is still needed. -/
def Mid (args : List (List UInt8)) (c : Client) (own : List UInt8) : Prop :=
  (c.bulklen = none ∧ ∃ left, args = c.argv ++ left ∧ c.multibulklen = left.length ∧ own = encodeArgs left) ∨
    ∃ arg left, c.bulklen = some arg.length ∧ args = c.argv ++ arg :: left ∧ c.multibulklen = left.length + 1 ∧
      own = arg ++ crlf ++ encodeArgs left

structure Same (c c' : Client) : Prop where
  reqtype : c'.reqtype = c.reqtype
  blocked : c'.blocked = c.blocked
  closeAfterReply : c'.closeAfterReply = c.closeAfterReply
  errors : c'.errors = c.errors
  commands : c'.commands = c.commands

theorem Same.trans {c₁ c₂ c₃ : Client} (h1 : Same c₁ c₂) (h2 : Same c₂ c₃) : Same c₁ c₃ :=
  ⟨h2.reqtype.trans h1.reqtype, h2.blocked.trans h1.blocked, h2.closeAfterReply.trans h1.closeAfterReply, h2.errors.trans h1.errors,
    h2.commands.trans h1.commands⟩

/-- The length at `pos` is not missing with more than 64 KB in the buffer. -/
def lengthTame (c : Client) (pos : ℕ) : Bool :=
  !(decide (c.bulklen = none) && decide (strchr 13 (c.querybuf.drop pos) = none) && decide (c.querybuf.length > inlineMaxSize))

variable {args : List (List UInt8)} {arg own rest : List UInt8} {c : Client} {pos : ℕ}

theorem readLine_missing (h : readLine querybuf pos = .missing) : strchr 13 (querybuf.drop pos) = none := by
  rw [readLine] at h
  cases hs : strchr 13 (querybuf.drop pos) with
  | none => rfl
  | some n =>
    rw [hs] at h
    dsimp only at h
    by_cases hcut : pos + n + 2 > querybuf.length
    · rw [if_pos hcut] at h
      exact absurd h nofun
    · rw [if_neg hcut] at h
      exact absurd h nofun

theorem readBulkLength_spec (hbulk : c.bulklen = none) (hpos : pos ≤ c.querybuf.length) (hlen : arg.length ≤ 512 * 1024 * 1024)
    (heq : c.querybuf.drop pos ++ fut = encodeArg arg ++ rest) (htame : lengthTame c pos = true) :
    (readBulkLength c pos = .stop c pos ∧ c.querybuf.length - pos < (encodeArg arg).length) ∨
      ∃ c' pos', readBulkLength c pos = .go c' pos' ∧ c'.bulklen = some arg.length ∧ pos' ≤ c'.querybuf.length ∧
        c'.querybuf.drop pos' ++ fut = arg ++ crlf ++ rest ∧ c'.argv = c.argv ∧ c'.multibulklen = c.multibulklen ∧ Same c c' := by
  have hcr : (13 : UInt8) ∉ (36 :: ll2string arg.length) := by
    rw [mem_cons, not_or]
    exact ⟨by decide, ll2string_noCr _⟩
  have hnul : (0 : UInt8) ∉ (36 :: ll2string arg.length) := by
    rw [mem_cons, not_or]
    exact ⟨by decide, ll2string_noNul _⟩
  have hlength : (encodeArg arg).length = (36 :: ll2string arg.length).length + 2 + (arg.length + 2) := by
    simp only [encodeArg, crlf, length_append, length_cons, length_nil]
  have hline : c.querybuf.drop pos ++ fut = (36 :: ll2string arg.length) ++ crlf ++ (arg ++ crlf ++ rest) := by
    rw [heq, encodeArg]
    simp only [append_assoc]
  rw [readBulkLength, if_neg (not_not.2 hbulk)]
  rcases readLine_line hpos hcr hnul hline with ⟨hshort, hread⟩ | ⟨hshort, hread⟩ | ⟨hlong, hread, htake, hdrop⟩
  · left
    rw [hread]
    have hsmall : ¬ c.querybuf.length > inlineMaxSize := by
      intro hbig
      rw [lengthTame, decide_eq_true hbulk, decide_eq_true (readLine_missing hread), decide_eq_true hbig] at htame
      exact absurd htame nofun
    rw [if_neg hsmall]
    exact ⟨rfl, by omega⟩
  · left
    rw [hread]
    exact ⟨rfl, by omega⟩
  right
  rw [hread]
  dsimp only
  have hdollar : c.querybuf[pos]? = some 36 := by
    have h1 := congrArg List.head? htake
    rw [← List.head?_drop]
    cases hd : c.querybuf.drop pos with
    | nil =>
      rw [hd] at h1
      exact absurd h1 nofun
    | cons a l =>
      rw [hd] at h1
      exact h1
  have hdigits : (c.querybuf.take (pos + (36 :: ll2string arg.length).length)).drop (pos + 1) = ll2string arg.length := by
    have h1 := congrArg List.tail htake
    rw [List.take_drop, ← drop_one, drop_drop] at h1
    exact h1
  have hvalue : string2ll (ll2string arg.length) = some ⟨arg.length, by omega⟩ := string2ll_iff.2 rfl
  rw [if_neg (not_not.2 hdollar), hdigits, hvalue]
  dsimp only
  rw [if_neg (by omega), Int.toNat_natCast]
  by_cases hbig : arg.length ≥ mbulkBigArg
  · rw [if_pos hbig]
    exact ⟨_, _, rfl, rfl, Nat.zero_le _, hdrop, rfl, rfl, rfl, rfl, rfl, rfl, rfl⟩
  · rw [if_neg hbig]
    refine ⟨_, _, rfl, rfl, ?_, hdrop, rfl, rfl, rfl, rfl, rfl, rfl, rfl⟩
    dsimp only
    omega

theorem readBulk_spec (hpos : pos ≤ c.querybuf.length) (heq : c.querybuf.drop pos ++ fut = arg ++ crlf ++ rest) :
    (readBulk c pos arg.length = .stop c pos ∧ c.querybuf.length - pos < arg.length + 2) ∨
      ∃ c' pos', readBulk c pos arg.length = .go c' pos' ∧ c'.bulklen = none ∧ pos' ≤ c'.querybuf.length ∧
        c'.querybuf.drop pos' ++ fut = rest ∧ c'.argv = c.argv ++ [arg] ∧ c'.multibulklen = c.multibulklen - 1 ∧ Same c c' := by
  rw [readBulk]
  by_cases hshort : c.querybuf.length - pos < arg.length + 2
  · left
    rw [if_pos hshort]
    exact ⟨rfl, hshort⟩
  right
  rw [if_neg hshort]
  have htake : (c.querybuf.drop pos).take arg.length = arg := by
    have h1 := congrArg (List.take arg.length) heq
    rwa [take_append_of_le_length (by rw [length_drop]; omega), append_assoc, take_left] at h1
  have hdrop : c.querybuf.drop (pos + (arg.length + 2)) ++ fut = rest := by
    have h1 := congrArg (List.drop (arg.length + 2)) heq
    rw [drop_append_of_le_length (by rw [length_drop]; omega), drop_drop] at h1
    rw [h1, drop_append]
    simp [crlf]
  by_cases hwhole : pos = 0 ∧ arg.length ≥ mbulkBigArg ∧ c.querybuf.length = arg.length + 2
  · -- the buffer is the argument
    rw [if_pos hwhole]
    obtain ⟨rfl, -, hall⟩ := hwhole
    rw [drop_zero] at htake
    rw [Nat.zero_add, ← hall, drop_length] at hdrop
    exact ⟨_, _, rfl, rfl, Nat.zero_le _, hdrop, by rw [htake], rfl, rfl, rfl, rfl, rfl, rfl⟩
  · rw [if_neg hwhole]
    refine ⟨_, _, rfl, rfl, ?_, hdrop, by rw [htake], rfl, rfl, rfl, rfl, rfl, rfl⟩
    dsimp only
    omega

/-- The loop does not come to a length that is missing with more than 64 KB in the buffer. -/
@[grind =] def bulkLoopTame : ℕ → Client → ℕ → Bool
  | 0, _, _ => true
  | n + 1, c, pos =>
    lengthTame c pos &&
      match readBulkLength c pos with
      | .go c pos =>
        match readBulk c pos (c.bulklen.getD 0) with
        | .go c pos => bulkLoopTame n c pos
        | _ => true
      | _ => true

theorem bulkLoop_spec (hsize : ∀ arg ∈ args, arg.length ≤ 512 * 1024 * 1024) : ∀ (n : ℕ) {c : Client} {pos : ℕ} {own : List UInt8},
    c.multibulklen = n → Mid args c own → pos ≤ c.querybuf.length → c.querybuf.drop pos ++ fut = own ++ rest → bulkLoopTame n c pos = true →
    ∃ c' pos' own', bulkLoop n c pos = .stop c' pos' ∧ Mid args c' own' ∧ pos' ≤ c'.querybuf.length ∧
      c'.querybuf.drop pos' ++ fut = own' ++ rest ∧ (own' = [] ∨ c'.querybuf.length - pos' < own'.length) ∧ Same c c' := by
  intro n
  induction n with
  | zero =>
    intro c pos own hn hmid hpos heq _
    refine ⟨c, pos, own, rfl, hmid, hpos, heq, Or.inl ?_, rfl, rfl, rfl, rfl, rfl⟩
    rcases hmid with ⟨-, left, -, hleft, hown⟩ | ⟨arg, left, -, -, hleft, -⟩
    · rw [hown, length_eq_zero_iff.1 (hleft.symm.trans hn)]
      rfl
    · omega
  | succ n ih =>
    intro c pos own hn hmid hpos heq htame
    rw [bulkLoopTame, Bool.and_eq_true] at htame
    obtain ⟨hlength, htame⟩ := htame
    -- what is done once the length of the argument is known
    have hbulk : ∀ {c₁ : Client} {pos₁ : ℕ} {arg : List UInt8} {left : List (List UInt8)}, c₁.bulklen = some arg.length →
        args = c₁.argv ++ arg :: left → c₁.multibulklen = n + 1 → n = left.length → pos₁ ≤ c₁.querybuf.length →
        c₁.querybuf.drop pos₁ ++ fut = arg ++ crlf ++ (encodeArgs left ++ rest) → readBulkLength c pos = .go c₁ pos₁ → Same c c₁ →
        ∃ c' pos' own', bulkLoop (n + 1) c pos = .stop c' pos' ∧ Mid args c' own' ∧ pos' ≤ c'.querybuf.length ∧
          c'.querybuf.drop pos' ++ fut = own' ++ rest ∧ (own' = [] ∨ c'.querybuf.length - pos' < own'.length) ∧ Same c c' := by
      intro c₁ pos₁ arg left hlen hargs hmulti hleft hpos₁ heq₁ hgo hsame
      rw [bulkLoop, hgo]
      dsimp only
      rw [hgo] at htame
      dsimp only at htame
      rw [hlen, getD_some] at htame ⊢
      rcases readBulk_spec hpos₁ heq₁ with ⟨hstop, hshort⟩ | ⟨c₂, pos₂, hgo₂, hnone, hpos₂, heq₂, hargv₂, hmulti₂, hsame₂⟩
      · rw [hstop]
        refine ⟨c₁, pos₁, arg ++ crlf ++ encodeArgs left, rfl, Or.inr ⟨arg, left, hlen, hargs, by omega, rfl⟩, hpos₁, ?_, Or.inr ?_, hsame⟩
        · rw [heq₁, append_assoc (arg ++ crlf)]
        · simp only [length_append, crlf, length_cons, length_nil]
          omega
      · rw [hgo₂] at htame ⊢
        have hmid₂ : Mid args c₂ (encodeArgs left) :=
          Or.inl ⟨hnone, left, by rw [hargv₂, hargs, append_assoc, singleton_append], by omega, rfl⟩
        obtain ⟨c', pos', own', h1, h2, h3, h4, h5, h6⟩ := ih (by omega) hmid₂ hpos₂ heq₂ htame
        exact ⟨c', pos', own', h1, h2, h3, h4, h5, (hsame.trans hsame₂).trans h6⟩
    rcases hmid with ⟨hnone, left, hargs, hleft, hown⟩ | ⟨arg, left, hlen, hargs, hleft, hown⟩
    · cases left with
      | nil =>
        rw [hn] at hleft
        exact absurd hleft nofun
      | cons arg left =>
        rw [hown, encodeArgs_cons, append_assoc] at heq
        have harg : arg.length ≤ 512 * 1024 * 1024 := hsize arg (by rw [hargs]; exact mem_append_right _ mem_cons_self)
        rcases readBulkLength_spec hnone hpos harg heq hlength with ⟨hstop, hshort⟩ | ⟨c₁, pos₁, hgo, hlen, hpos₁, heq₁, hargv, hmulti, hsame⟩
        · rw [bulkLoop, hstop]
          refine ⟨c, pos, own, rfl, Or.inl ⟨hnone, arg :: left, hargs, hleft, hown⟩, hpos, ?_, Or.inr ?_, rfl, rfl, rfl, rfl, rfl⟩
          · rw [heq, hown, encodeArgs_cons, append_assoc]
          · rw [hown, encodeArgs_cons, length_append]
            omega
        · refine hbulk hlen (by rw [hargv, hargs]) (hmulti.trans hn) ?_ hpos₁ heq₁ hgo hsame
          rw [hn, length_cons] at hleft
          omega
    · have hgo : readBulkLength c pos = .go c pos := by
        rw [readBulkLength, if_pos (by rw [hlen]; exact nofun)]
      refine hbulk hlen hargs hn (by omega) hpos ?_ hgo ⟨rfl, rfl, rfl, rfl, rfl⟩
      rw [heq, hown, append_assoc (arg ++ crlf)]

end KVStores.Redis.Query
