import KVStores.Snappy.Emit

/-!
# The compressor of one block

The table has only places in front of `ip`, and what it suggests is compared with the input before it is used. So whatever the table
holds, each round of the main loop appends a literal and copies that mean the bytes it goes over.

For the size, what is emitted up to `next_emit` is at most 61/60 of the bytes it means: a literal of up to 60 bytes has one byte in front,
each longer one at most three, and a copy is at least one byte shorter than what it copies.
-/

namespace KVStores.Snappy

open List Option

open CopyBack

/-- There is an entry for each hash, a place in front of `ip`. -/
structure TableOk (shift ip : ℕ) (table : List ℕ) : Prop where
  size : table.length = 2 ^ (32 - shift)
  behind : ∀ p ∈ table, p < ip

variable {shift ip : ℕ} {table : List ℕ}

theorem hashBytes_lt (bytes : ℕ) (hshift : shift ≤ 32) : hashBytes bytes shift < 2 ^ (32 - shift) := by
  refine Nat.div_lt_of_lt_mul ?_
  rw [← Nat.pow_add, Nat.add_sub_cancel' hshift]
  exact Nat.mod_lt _ (Nat.two_pow_pos 32)

theorem TableOk.set (h : TableOk shift ip table) {hash p : ℕ} (hp : p < 2 ^ 16) (hip : ip ≤ p + 1) : TableOk shift (p + 1) (table.set hash (p % 2 ^ 16)) where
  size := by rw [length_set, h.size]
  behind q hq := by
    rw [Nat.mod_eq_of_lt hp] at hq
    rcases mem_or_eq_of_mem_set hq with hold | rfl
    · exact lt_of_lt_of_le (h.behind q hold) hip
    · exact Nat.lt_succ_self q

theorem TableOk.get (h : TableOk shift ip table) {hash : ℕ} (hhash : hash < 2 ^ (32 - shift)) : ∃ p, table[hash]? = some p ∧ p < ip := by
  have hin : hash < table.length := by rwa [h.size]
  exact ⟨table[hash], List.getElem?_eq_getElem hin, h.behind _ (getElem_mem hin)⟩

variable {input : Bytes} {ipLimit : ℕ}

theorem load32_eq {p : ℕ} (h : p + 4 ≤ input.length) : load32 input p = some (ofLittleEndian ((input.drop p).take 4)) := by
  rw [load32, (read_input h).1]
  rfl

theorem same_of_load32 {p q : ℕ} (hp : p + 4 ≤ input.length) (hq : q + 4 ≤ input.length)
    (h : ofLittleEndian ((input.drop p).take 4) = ofLittleEndian ((input.drop q).take 4)) : Same input p q 4 := by
  obtain ⟨hreadP, hlenP⟩ := read_input hp
  obtain ⟨hreadQ, hlenQ⟩ := read_input hq
  rw [ofLittleEndian_inj (hlenP.trans hlenQ.symm) h] at hreadP
  exact same_of_read hreadP hreadQ

theorem scanLoop_spec (hshift : shift ≤ 32) (hlimit : ipLimit + kInputMarginBytes ≤ input.length) (hsmall : input.length ≤ 2 ^ 16) :
    ∀ {fuel ip hash skip : ℕ} {table : List ℕ}, TableOk shift ip table → hash < 2 ^ (32 - shift) → 32 ≤ skip → 0 < fuel → ipLimit < ip + fuel →
      scanLoop input ipLimit shift fuel ip hash skip table = some .remainder ∨
      ∃ ip' candidate table', scanLoop input ipLimit shift fuel ip hash skip table = some (.found ip' candidate table') ∧ ip ≤ ip' ∧ ip' < ipLimit ∧
        candidate < ip' ∧ Same input candidate ip' 4 ∧ TableOk shift (ip' + 1) table' := by
  rw [kInputMarginBytes] at hlimit
  intro fuel
  induction fuel with
  | zero =>
    intro ip hash skip table _ _ _ hpos
    exact absurd hpos (Nat.lt_irrefl 0)
  | succ fuel ih =>
    intro ip hash skip table htable hhash hskip _ hfuel
    have hstep : ip < ip + skip / 2 ^ 5 := by omega
    rw [scanLoop]
    generalize ip + skip / 2 ^ 5 = nextIp at hstep
    by_cases hend : ipLimit < nextIp
    · exact Or.inl (if_pos hend)
    obtain ⟨candidate, hcandidate, hback⟩ := htable.get hhash
    rw [if_neg hend, load32_eq (by omega), bind_some, hcandidate, bind_some, load32_eq (p := ip) (by omega), bind_some,
      load32_eq (p := candidate) (by omega), bind_some]
    have htable' := @TableOk.set shift ip table htable hash ip (by omega) (Nat.le_succ ip)
    by_cases hsame : ofLittleEndian ((input.drop ip).take 4) = ofLittleEndian ((input.drop candidate).take 4)
    · rw [if_neg (not_not_intro hsame)]
      exact Or.inr ⟨ip, candidate, _, rfl, Nat.le_refl ip, by omega, hback, same_of_load32 (by omega) (by omega) hsame.symm, htable'⟩
    rw [if_pos hsame]
    have hmono : TableOk shift nextIp (table.set hash (ip % 2 ^ 16)) := ⟨htable'.size, fun p hp => lt_of_lt_of_le (htable'.behind p hp) hstep⟩
    rcases ih hmono (hashBytes_lt _ hshift) (Nat.le_succ_of_le hskip) (by omega) (by omega) with hrest | ⟨ip', candidate', table', hrest, hip, hfound⟩
    · exact Or.inl hrest
    · exact Or.inr ⟨ip', candidate', table', hrest, by omega, hfound⟩

/-- These bytes mean a part of the input, for whoever has written what is in front. -/
def Emits (input : Bytes) (a b : ℕ) (code : Bytes) : Prop :=
  ∀ rest out final : Bytes, DescribesFrom rest (out ++ input.take b) final → DescribesFrom (code ++ rest) (out ++ input.take a) final

theorem Emits.trans {a b c : ℕ} {code code' : Bytes} (h : Emits input a b code) (h' : Emits input b c code') : Emits input a c (code ++ code') := by
  intro rest out final hnext
  rw [append_assoc]
  exact h _ out final (h' rest out final hnext)

theorem emits_literal {a len : ℕ} (hpos : 0 < len) (hin : a + len ≤ input.length) (hlen : len ≤ 2 ^ 16) :
    Emits input a (a + len) (literalHeader len ++ (input.drop a).take len) := by
  intro rest out final hnext
  have hread := (read_input hin).2
  rw [take_add, ← append_assoc] at hnext
  have hdescribes := @describesFrom_literal ((input.drop a).take len) rest (out ++ input.take a) final (by omega) (by omega) hnext
  rwa [hread, ← append_assoc] at hdescribes

theorem emits_copy {a p len : ℕ} {code : Bytes} (hcode : CopyCode (a - p) len code) (hback : p < a) (hin : a + len ≤ input.length) (h : Same input p a len) :
    Emits input a (a + len) code := by
  intro rest out final hnext
  refine hcode.describes rest _ final ?_ ?_
  · rw [length_append, length_take]
    omega
  · rwa [copyBack_repeat out hback hin h]

def Output.Room (o : Output) (input : Bytes) : Prop := 61 * input.length + 60 * 31 ≤ 60 * o.dest.length

theorem Output.Appends.room {o o' : Output} {code : Bytes} (h : o.Appends o' code) (hroom : o.Room input) : o'.Room input := by
  rw [Output.Room, h.size]
  exact hroom

theorem load64_eq {p : ℕ} (h : p + 8 ≤ input.length) : load64 input p = some (ofLittleEndian ((input.drop p).take 8)) := by
  rw [load64, (read_input h).1]
  rfl

theorem getUint32AtOffset_eq {p k : ℕ} (hk : k ≤ 4) : getUint32AtOffset (ofLittleEndian ((input.drop p).take 8)) k = ofLittleEndian ((input.drop (p + k)).take 4) := by
  have hdrop : ((input.drop p).take 8).drop k = (input.drop (p + k)).take (8 - k) := by rw [drop_take, drop_drop]
  have htake : ((input.drop (p + k)).take (8 - k)).take 4 = (input.drop (p + k)).take 4 := by rw [take_take, Nat.min_eq_left (by omega)]
  calc getUint32AtOffset (ofLittleEndian ((input.drop p).take 8)) k
      = ofLittleEndian ((input.drop p).take 8) / 256 ^ k % 256 ^ 4 := by
        rw [getUint32AtOffset, Nat.pow_mul, show (2 : ℕ) ^ 8 = 256 by rfl, show (256 : ℕ) ^ 4 = 2 ^ 32 by rfl]
    _ = ofLittleEndian ((((input.drop p).take 8).drop k).take 4) := by rw [← ofLittleEndian_drop, ← ofLittleEndian_take]
    _ = ofLittleEndian ((input.drop (p + k)).take 4) := by rw [hdrop, htake]

/-- How the loop of step 3 ends, whatever the output was before. -/
def EndsCopies (input : Bytes) (ipLimit shift fuel base candidate : ℕ) (table : List ℕ) (code : Bytes) (ending : Output → CopyStop) : Prop :=
  ∀ o : Output, 60 * o.op ≤ 61 * base + 60 → o.Room input → ∃ o', copyLoop input ipLimit shift fuel base candidate table o = some (ending o') ∧ o.Appends o' code

/-- **The copies** mean what they go over, and are at least one byte shorter. -/
theorem copyLoop_spec (hshift : shift ≤ 32) (hlimit : ipLimit + kInputMarginBytes ≤ input.length) (hsmall : input.length ≤ 2 ^ 16) :
    ∀ {fuel base candidate : ℕ} {table : List ℕ}, TableOk shift (base + 1) table → candidate < base → Same input candidate base 4 → base < ipLimit →
      input.length < base + fuel → ∃ b code, base + code.length < b ∧ b ≤ input.length ∧ Emits input base b code ∧
        (EndsCopies input ipLimit shift fuel base candidate table code (CopyStop.remainder b) ∨
          ∃ hash table', b < ipLimit ∧ hash < 2 ^ (32 - shift) ∧ TableOk shift (b + 1) table' ∧
            EndsCopies input ipLimit shift fuel base candidate table code (CopyStop.round (b + 1) hash b table')) := by
  rw [kInputMarginBytes] at hlimit
  intro fuel
  induction fuel with
  | zero =>
    intro base candidate table _ _ _ hbase hfuel
    omega
  | succ fuel ih =>
    intro base candidate table htable hback hsame hbase hfuel
    obtain ⟨more, hmatch, hin, hmore⟩ := @findMatchLength_spec input (candidate + 4) (base + 4) (by omega) (by omega)
    obtain ⟨code, hcode, hemit⟩ := @emitCopy_appends (base - candidate) (4 + more) (by omega) (by omega) (Nat.le_add_right 4 more)
    have hmeans := emits_copy hcode hback (by omega) (Same.append hsame hmore)
    have hshort := hcode.short
    have hend : base + (4 + more) ≤ input.length := by omega
    have hlong : base + 4 ≤ base + (4 + more) := by omega
    generalize hb : base + (4 + more) = b at hmeans hend hlong
    -- what the first copy does to any output
    have hfirst : ∀ o : Output, 60 * o.op ≤ 61 * base + 60 → o.Room input → ∃ o', emitCopy o (base - candidate) (4 + more) = some o' ∧ o.Appends o' code := by
      intro o hop hroom
      rw [Output.Room] at hroom
      exact hemit o (by omega)
    by_cases hlast : ipLimit ≤ b
    · refine ⟨b, code, by omega, hend, hmeans, Or.inl fun o hop hroom => ?_⟩
      obtain ⟨o', hcopy, ho'⟩ := hfirst o hop hroom
      refine ⟨o', ?_, ho'⟩
      rw [copyLoop, hmatch, bind_some]
      rw [hcopy, bind_some, hb, if_pos hlast]
    have hload := @load64_eq input (b - 1) (by omega)
    have hword : getUint32AtOffset (ofLittleEndian ((input.drop (b - 1)).take 8)) 1 = ofLittleEndian ((input.drop b).take 4) := by
      rw [getUint32AtOffset_eq (by decide), Nat.sub_add_cancel (by omega)]
    generalize ofLittleEndian ((input.drop (b - 1)).take 8) = inputBytes at hload hword
    have hbefore : TableOk shift (b - 1) table := ⟨htable.size, fun p hp => lt_of_lt_of_le (htable.behind p hp) (by omega)⟩
    have htable₁ := @TableOk.set shift (b - 1) table hbefore (hashBytes (getUint32AtOffset inputBytes 0) shift) (b - 1) (by omega) (Nat.le_succ _)
    rw [Nat.sub_add_cancel (show 1 ≤ b by omega)] at htable₁
    obtain ⟨candidate', hcandidate, hback'⟩ := htable₁.get (hashBytes_lt (getUint32AtOffset inputBytes 1) hshift)
    have htable₂ := @TableOk.set shift b _ htable₁ (hashBytes (getUint32AtOffset inputBytes 1) shift) b (by omega) (Nat.le_succ b)
    have hload' := @load32_eq input candidate' (by omega)
    -- so the loop goes on, or ends with a new round
    have hgo : ∀ o o' : Output, emitCopy o (base - candidate) (4 + more) = some o' → copyLoop input ipLimit shift (fuel + 1) base candidate table o =
        if ofLittleEndian ((input.drop b).take 4) = ofLittleEndian ((input.drop candidate').take 4) then
          copyLoop input ipLimit shift fuel b candidate' (((table.set (hashBytes (getUint32AtOffset inputBytes 0) shift) ((b - 1) % 2 ^ 16))).set
            (hashBytes (getUint32AtOffset inputBytes 1) shift) (b % 2 ^ 16)) o'
        else some (.round (b + 1) (hashBytes (getUint32AtOffset inputBytes 2) shift) b (((table.set (hashBytes (getUint32AtOffset inputBytes 0) shift)
          ((b - 1) % 2 ^ 16))).set (hashBytes (getUint32AtOffset inputBytes 1) shift) (b % 2 ^ 16)) o') := by
      intro o o' hcopy
      rw [copyLoop, hmatch, bind_some]
      dsimp only
      rw [hcopy, bind_some, hb, if_neg hlast, hload, bind_some, hcandidate, bind_some, hload', bind_some, hword]
    by_cases hagain : ofLittleEndian ((input.drop b).take 4) = ofLittleEndian ((input.drop candidate').take 4)
    · obtain ⟨b', code', hshort', hend', hmeans', hrest⟩ := ih htable₂ hback' (same_of_load32 (by omega) (by omega) hagain.symm) (by omega) (by omega)
      have hall : ∀ {ending : Output → CopyStop}, EndsCopies input ipLimit shift fuel b candidate' (((table.set (hashBytes (getUint32AtOffset inputBytes 0) shift)
          ((b - 1) % 2 ^ 16))).set (hashBytes (getUint32AtOffset inputBytes 1) shift) (b % 2 ^ 16)) code' ending →
          EndsCopies input ipLimit shift (fuel + 1) base candidate table (code ++ code') ending := by
        intro ending h o hop hroom
        obtain ⟨o₁, hcopy, ho₁⟩ := hfirst o hop hroom
        have hop₁ := ho₁.op
        obtain ⟨o₂, hloop, ho₂⟩ := h o₁ (by omega) (ho₁.room hroom)
        exact ⟨o₂, by rw [hgo o o₁ hcopy, if_pos hagain, hloop], ho₁.trans ho₂⟩
      refine ⟨b', code ++ code', by rw [length_append]; omega, hend', hmeans.trans hmeans', ?_⟩
      rcases hrest with hremainder | ⟨hash, table', hlimit', hhash, htable', hround⟩
      · exact Or.inl (hall hremainder)
      · exact Or.inr ⟨hash, table', hlimit', hhash, htable', hall hround⟩
    · refine ⟨b, code, by omega, hend, hmeans, Or.inr ⟨hashBytes (getUint32AtOffset inputBytes 2) shift, _, Nat.not_le.1 hlast,
        hashBytes_lt _ hshift, htable₂, fun o hop hroom => ?_⟩⟩
      obtain ⟨o', hcopy, ho'⟩ := hfirst o hop hroom
      exact ⟨o', by rw [hgo o o' hcopy, if_neg hagain], ho'⟩

theorem length_literal {len : ℕ} (hpos : 0 < len) (hlen : len ≤ 2 ^ 16) : 60 * ((literalHeader len).length + len) ≤ 61 * len + 60 := by
  obtain ⟨hthree, hone, htwo⟩ := literalHeader_length hlen
  by_cases hshort : len ≤ 60
  · omega
  · by_cases hmiddle : len ≤ 256
    · omega
    · omega

theorem mainLoop_spec (hshift : shift ≤ 32) (hlimit : ipLimit + kInputMarginBytes ≤ input.length) (hsmall : input.length ≤ 2 ^ 16) :
    ∀ {fuel ip hash nextEmit : ℕ} {table : List ℕ}, TableOk shift ip table → hash < 2 ^ (32 - shift) → nextEmit < ip → nextEmit ≤ input.length →
      input.length < nextEmit + fuel → ∃ b code, nextEmit ≤ b ∧ b ≤ input.length ∧ Emits input nextEmit b code ∧
        60 * code.length + 61 * nextEmit ≤ 61 * b ∧ ∀ o : Output, 60 * o.op ≤ 61 * nextEmit → o.Room input →
          ∃ o', mainLoop input ipLimit shift fuel ip hash nextEmit table o = some (b, o') ∧ o.Appends o' code := by
  intro fuel
  induction fuel with
  | zero =>
    intro ip hash nextEmit table _ _ _ hin hfuel
    omega
  | succ fuel ih =>
    intro ip hash nextEmit table htable hhash hemitted hin hfuel
    rcases @scanLoop_spec shift input ipLimit hshift hlimit hsmall (input.length + 1) ip hash 32 table htable hhash (Nat.le_refl 32) (Nat.succ_pos _)
      (by rw [kInputMarginBytes] at hlimit; omega) with hscan | ⟨ip', candidate, table', hscan, hip, hip', hback, hsame, htable'⟩
    · refine ⟨nextEmit, [], Nat.le_refl _, hin, fun _ _ _ hnext => hnext, Nat.le_of_eq (Nat.zero_add _), fun o _ _ => ⟨o, ?_, Output.Appends.refl o⟩⟩
      rw [mainLoop, hscan]
      rfl
    obtain ⟨b, code, hshort, hend, hmeans, hcopies⟩ := @copyLoop_spec shift input ipLimit hshift hlimit hsmall (input.length + 1) ip' candidate table' htable' hback
      hsame hip' (by omega)
    rw [kInputMarginBytes] at hlimit
    have hliteral := @emits_literal input nextEmit (ip' - nextEmit) (by omega) (by omega) (by omega)
    have hsize := @length_literal (ip' - nextEmit) (by omega) (by omega)
    have hread := (@read_input input nextEmit (ip' - nextEmit) (by omega)).2
    rw [Nat.add_sub_cancel' (show nextEmit ≤ ip' by omega)] at hliteral
    have hlength : (literalHeader (ip' - nextEmit) ++ (input.drop nextEmit).take (ip' - nextEmit)).length = (literalHeader (ip' - nextEmit)).length + (ip' - nextEmit) := by
      rw [length_append, hread]
    have hfirst : ∀ o : Output, 60 * o.op ≤ 61 * nextEmit → o.Room input → ∃ o', emitLiteral input o nextEmit (ip' - nextEmit) true = some o' ∧
        o.Appends o' (literalHeader (ip' - nextEmit) ++ (input.drop nextEmit).take (ip' - nextEmit)) := by
      intro o hop hroom
      rw [Output.Room] at hroom
      exact emitLiteral_appends (by omega) (fun _ => by omega) (by omega) (by omega)
    generalize literalHeader (ip' - nextEmit) ++ (input.drop nextEmit).take (ip' - nextEmit) = lit at hliteral hlength hfirst
    rcases hcopies with hremainder | ⟨hash', table'', hlimit', hhash', htable'', hround⟩
    · refine ⟨b, lit ++ code, by omega, hend, hliteral.trans hmeans, by rw [length_append]; omega, fun o hop hroom => ?_⟩
      obtain ⟨o₁, hemit, ho₁⟩ := hfirst o hop hroom
      have hop₁ := ho₁.op
      obtain ⟨o₂, hcopy, ho₂⟩ := hremainder o₁ (by omega) (ho₁.room hroom)
      refine ⟨o₂, ?_, ho₁.trans ho₂⟩
      rw [mainLoop, hscan, bind_some]
      dsimp only
      rw [hemit, bind_some, hcopy]
      rfl
    · obtain ⟨b', code', hle, hend', hmeans', hsize', hrest⟩ := @ih (b + 1) hash' b table'' htable'' hhash' (Nat.lt_succ_self b) hend (by omega)
      refine ⟨b', lit ++ code ++ code', by omega, hend', (hliteral.trans hmeans).trans hmeans', by rw [length_append, length_append]; omega,
        fun o hop hroom => ?_⟩
      obtain ⟨o₁, hemit, ho₁⟩ := hfirst o hop hroom
      have hop₁ := ho₁.op
      obtain ⟨o₂, hcopy, ho₂⟩ := hround o₁ (by omega) (ho₁.room hroom)
      have hop₂ := ho₂.op
      obtain ⟨o₃, hloop, ho₃⟩ := hrest o₂ (by omega) (ho₂.room (ho₁.room hroom))
      refine ⟨o₃, ?_, (ho₁.trans ho₂).trans ho₃⟩
      rw [mainLoop, hscan, bind_some]
      dsimp only
      rw [hemit, bind_some, hcopy, bind_some]
      exact hloop

/-- **`CompressFragment`**, with a table of zeros: what it writes into a buffer of `MaxCompressedLength` is the same whatever was there, means the
block, and stays inside. -/
theorem compressFragment_spec (hsmall : input.length ≤ 2 ^ 16) {k : ℕ} (hk : k ≤ 32) :
    ∃ code, (∀ rest out final, DescribesFrom rest (out ++ input) final → DescribesFrom (code ++ rest) out final) ∧
      60 * code.length ≤ 61 * input.length + 60 ∧ ∀ dest : Bytes, maxCompressedLength input.length ≤ dest.length →
        ∃ o', compressFragment input ⟨dest, 0⟩ (List.replicate (2 ^ k) 0) (2 ^ k) = some o' ∧ Output.Appends ⟨dest, 0⟩ o' code := by
  have hlog : Nat.log2 (2 ^ k) = k := Nat.log2_two_pow
  have hroom : ∀ {dest : Bytes}, maxCompressedLength input.length ≤ dest.length → Output.Room ⟨dest, 0⟩ input := by
    intro dest hdest
    rw [maxCompressedLength] at hdest
    show 61 * input.length + 60 * 31 ≤ 60 * dest.length
    omega
  have hmain : ∃ b code, b ≤ input.length ∧ Emits input 0 b code ∧ 60 * code.length ≤ 61 * b ∧
      ∀ o : Output, o.op = 0 → o.Room input → ∃ o', (if kInputMarginBytes ≤ input.length then
        (load32 input 1).bind fun bytes => mainLoop input (input.length - kInputMarginBytes) (32 - k) (input.length + 1) 1 (hashBytes bytes (32 - k)) 0
          (List.replicate (2 ^ k) 0) o
        else some (0, o)) = some (b, o') ∧ o.Appends o' code := by
    by_cases hlong : kInputMarginBytes ≤ input.length
    · have htable : TableOk (32 - k) 1 (List.replicate (2 ^ k) 0) := by
        refine ⟨by rw [length_replicate, Nat.sub_sub_self hk], fun p hp => ?_⟩
        rw [(mem_replicate.1 hp).2]
        exact Nat.zero_lt_one
      obtain ⟨b, code, -, hb, hmeans, hsize, hrun⟩ := @mainLoop_spec (32 - k) input (input.length - kInputMarginBytes) (Nat.sub_le _ _) (by omega) hsmall
        (input.length + 1) 1 (hashBytes (ofLittleEndian ((input.drop 1).take 4)) (32 - k)) 0 (List.replicate (2 ^ k) 0) htable
        (hashBytes_lt _ (Nat.sub_le _ _)) Nat.zero_lt_one (Nat.zero_le _) (by omega)
      refine ⟨b, code, hb, hmeans, by omega, fun o hop ho => ?_⟩
      obtain ⟨o', hloop, ho'⟩ := hrun o (by omega) ho
      rw [kInputMarginBytes] at hlong
      rw [if_pos (by rw [kInputMarginBytes]; exact hlong), load32_eq (by omega), bind_some]
      exact ⟨o', hloop, ho'⟩
    · exact ⟨0, [], Nat.zero_le _, fun _ _ _ hnext => hnext, Nat.zero_le _, fun o _ _ => ⟨o, if_neg hlong, Output.Appends.refl o⟩⟩
  obtain ⟨b, code, hb, hmeans, hsize, hrun⟩ := hmain
  by_cases hrest : b < input.length
  · have hliteral := @emits_literal input b (input.length - b) (by omega) (by omega) (by omega)
    have hread := (@read_input input b (input.length - b) (by omega)).2
    have hlength := @length_literal (input.length - b) (by omega) (by omega)
    rw [Nat.add_sub_cancel' hb] at hliteral
    refine ⟨code ++ (literalHeader (input.length - b) ++ (input.drop b).take (input.length - b)), fun rest out final hnext => ?_, ?_, fun dest hdest => ?_⟩
    · have hall := (hmeans.trans hliteral) rest out final (by rw [take_length]; exact hnext)
      rwa [take_zero, append_nil] at hall
    · rw [length_append, length_append, hread]
      omega
    · obtain ⟨o₁, hloop, ho₁⟩ := hrun ⟨dest, 0⟩ rfl (hroom hdest)
      have hop₁ : o₁.op = 0 + code.length := ho₁.op
      have hroom₁ := ho₁.room (hroom hdest)
      rw [Output.Room] at hroom₁
      obtain ⟨o₂, hemit, ho₂⟩ := @emitLiteral_appends input o₁ b (input.length - b) false (by omega) (fun h => absurd h Bool.false_ne_true) (by omega) (by omega)
      refine ⟨o₂, ?_, ho₁.trans ho₂⟩
      rw [compressFragment, hlog, hloop, bind_some, if_pos hrest, hemit]
  · obtain rfl : b = input.length := by omega
    refine ⟨code, fun rest out final hnext => ?_, by omega, fun dest hdest => ?_⟩
    · have hall := hmeans rest out final (by rw [take_length]; exact hnext)
      rwa [take_zero, append_nil] at hall
    · obtain ⟨o₁, hloop, ho₁⟩ := hrun ⟨dest, 0⟩ rfl (hroom hdest)
      refine ⟨o₁, ?_, ho₁⟩
      rw [compressFragment, hlog, hloop, bind_some, if_neg hrest]

end KVStores.Snappy
