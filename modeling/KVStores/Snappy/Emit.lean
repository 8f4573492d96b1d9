import KVStores.Snappy.Tags

/-!
# What the compressor writes

Each function that emits something appends its bytes to the output, if there is room, and spoils at most sixteen bytes more.
-/

namespace KVStores.Snappy

open List Option Function

open CopyBack

def Output.written (o : Output) : Bytes := o.dest.take o.op

structure Output.Appends (o o' : Output) (code : Bytes) : Prop where
  op : o'.op = o.op + code.length
  size : o'.dest.length = o.dest.length
  written : o'.written = o.written ++ code

variable {o : Output}

theorem Output.Appends.trans {o o' o'' : Output} {code code' : Bytes} (h : o.Appends o' code) (h' : o'.Appends o'' code') : o.Appends o'' (code ++ code') where
  op := by rw [h'.op, h.op, length_append, Nat.add_assoc]
  size := h'.size.trans h.size
  written := by rw [h'.written, h.written, append_assoc]

theorem Output.Appends.refl (o : Output) : o.Appends o [] := ⟨rfl, rfl, (append_nil _).symm⟩

theorem Output.put_appends {o : Output} {bs : Bytes} (hroom : o.op + bs.length ≤ o.dest.length) : ∃ o', o.put bs = some o' ∧ o.Appends o' bs := by
  obtain ⟨m, hwrite, hsize, hm⟩ := take_write hroom
  exact ⟨⟨m, o.op + bs.length⟩, by rw [Output.put, hwrite]; rfl, rfl, hsize, hm⟩

theorem literalHeader_length {len : ℕ} (h : len ≤ 2 ^ 16) : (literalHeader len).length ≤ 3 ∧ (len ≤ 60 → (literalHeader len).length = 1) ∧
    (len ≤ 256 → (literalHeader len).length ≤ 2) := by
  rw [literalHeader]
  by_cases hshort : len - 1 < 60
  · rw [if_pos hshort, length_singleton]
    exact ⟨by decide, fun _ => rfl, fun _ => by decide⟩
  · rw [if_neg hshort, length_cons]
    obtain ⟨-, hlen⟩ := @lengthBytes_spec 8 (len - 1) (by omega)
    have htwo := hlen 2 (by omega)
    refine ⟨by omega, fun h' => absurd hshort (by omega), fun h' => ?_⟩
    have hone := hlen 1 (by omega)
    omega

variable {input : Bytes} {p n : ℕ}

theorem read_input {input : Bytes} {p n : ℕ} (h : p + n ≤ input.length) :
    Memory.read input p n = some ((input.drop p).take n) ∧ ((input.drop p).take n).length = n := by
  refine ⟨if_pos h, ?_⟩
  rw [length_take, length_drop]
  omega

theorem emitLiteral_appends {input : Bytes} {o : Output} {p len : ℕ} {fast : Bool} (hin : p + len ≤ input.length) (hfast : fast = true → p + 16 ≤ input.length)
    (hlen : len ≤ 2 ^ 16) (hroom : o.op + len + 19 ≤ o.dest.length) :
    ∃ o', emitLiteral input o p len fast = some o' ∧ o.Appends o' (literalHeader len ++ (input.drop p).take len) := by
  obtain ⟨hread, hreadLen⟩ := read_input hin
  obtain ⟨hheader, -⟩ := literalHeader_length hlen
  obtain ⟨o₁, hput, ho₁⟩ := @Output.put_appends o (literalHeader len) (by omega)
  have hop := ho₁.op
  have hsize := ho₁.size
  rw [emitLiteral]
  by_cases hshort : len - 1 < 60
  · have hcode : literalHeader len = [UInt8.ofNat ((len - 1) * 4)] := if_pos hshort
    rw [hcode] at hput
    rw [if_pos hshort, hput, bind_some]
    by_cases hsixteen : fast = true ∧ len ≤ 16
    · rw [if_pos hsixteen]
      obtain ⟨hread₁, hlen₁⟩ := @read_input input p 8 (by have := hfast hsixteen.1; omega)
      obtain ⟨hread₂, hlen₂⟩ := @read_input input (p + 8) 8 (by have := hfast hsixteen.1; omega)
      obtain ⟨m₁, hwrite₁, hm₁, htake₁⟩ := @take_write o₁.dest ((input.drop p).take 8) o₁.op (by omega)
      obtain ⟨m₂, hwrite₂, hm₂, htake₂⟩ := @take_write m₁ ((input.drop (p + 8)).take 8) (o₁.op + 8) (by omega)
      rw [hread₁, bind_some, hwrite₁, bind_some, hread₂, bind_some, hwrite₂]
      refine ⟨⟨m₂, o₁.op + len⟩, rfl, ?_, ?_, ?_⟩
      · rw [length_append, hreadLen, hop, Nat.add_assoc]
      · exact hm₂.trans (hm₁.trans hsize)
      · have hall : m₂.take (o₁.op + 16) = o₁.written ++ (input.drop p).take 16 := by
          rw [hlen₁] at htake₁
          rw [hlen₂, htake₁, append_assoc, ← drop_drop, ← take_add] at htake₂
          exact htake₂
        have hcut := congrArg (List.take (o₁.op + len)) hall
        have hwritten : o₁.written.length = o₁.op := by
          rw [Output.written, length_take]
          omega
        rw [take_take, Nat.min_eq_left (by omega)] at hcut
        show m₂.take (o₁.op + len) = _
        rw [hcut, ← hwritten, take_length_add_append, take_take, Nat.min_eq_left hsixteen.2, ho₁.written, append_assoc]
    · rw [if_neg hsixteen, hread, bind_some]
      obtain ⟨o₂, hput₂, ho₂⟩ := @Output.put_appends o₁ ((input.drop p).take len) (by omega)
      exact ⟨o₂, hput₂, ho₁.trans ho₂⟩
  · have hcode : literalHeader len = UInt8.ofNat ((59 + (lengthBytes 8 (len - 1)).length) * 4) :: lengthBytes 8 (len - 1) := if_neg hshort
    rw [hcode] at hput
    rw [if_neg hshort]
    dsimp only
    rw [hput, bind_some, hread, bind_some]
    obtain ⟨o₂, hput₂, ho₂⟩ := @Output.put_appends o₁ ((input.drop p).take len) (by omega)
    exact ⟨o₂, hput₂, ho₁.trans ho₂⟩

theorem copyCode_length (offset len : ℕ) : (copyCode offset len).length ≤ 3 := by
  rw [copyCode]
  by_cases hone : len < 12 ∧ offset < 2048
  · rw [if_pos hone]
    exact Nat.le_succ 2
  · rw [if_neg hone]
    exact Nat.le_refl 3

theorem emitCopyLessThan64_appends {o : Output} {offset len : ℕ} (hroom : o.op + 3 ≤ o.dest.length) :
    ∃ o', emitCopyLessThan64 o offset len = some o' ∧ o.Appends o' (copyCode offset len) := by
  have hlen := copyCode_length offset len
  obtain ⟨o', hput, ho'⟩ := @Output.put_appends o (copyCode offset len) (by omega)
  refine ⟨o', ?_, ho'⟩
  rw [emitCopyLessThan64]
  rw [copyCode] at hput
  by_cases hone : len < 12 ∧ offset < 2048
  · rw [if_pos hone] at hput ⊢
    exact hput
  · rw [if_neg hone] at hput ⊢
    exact hput

/-- Bytes that mean a copy of this length, and how many they are at most. -/
structure CopyCode (offset len : ℕ) (code : Bytes) : Prop where
  short : code.length < len
  describes : ∀ rest out final : Bytes, offset ≤ out.length → DescribesFrom rest (copyBack offset len out) final → DescribesFrom (code ++ rest) out final

theorem copyCode_ok {offset len : ℕ} (hpos : 0 < offset) (hsmall : offset < 2 ^ 16) (hlen : 4 ≤ len) (hlen' : len ≤ 64) : CopyCode offset len (copyCode offset len) where
  short := lt_of_le_of_lt (copyCode_length offset len) hlen
  describes _ _ _ hin hnext := describesFrom_copy hlen hlen' hpos hin hsmall hnext

theorem CopyCode.append {offset len len' : ℕ} {code code' : Bytes} (hpos : 0 < offset) (h : CopyCode offset len code) (h' : CopyCode offset len' code') :
    CopyCode offset (len + len') (code ++ code') where
  short := by
    have hshort := h.short
    have hshort' := h'.short
    rw [length_append]
    omega
  describes rest out final hin hnext := by
    have hlen := length_copyBack hpos hin len
    rw [append_assoc]
    refine h.describes _ _ _ hin (h'.describes _ _ _ (by omega) ?_)
    rwa [copyBack, copyBack, ← iterate_add_apply, Nat.add_comm len' len]

/-- **`EmitCopy`** in copies of 64, of 60, and of what is left, which is never less than four. -/
theorem emitCopy_appends {offset len : ℕ} (hpos : 0 < offset) (hsmall : offset < 2 ^ 16) (hlen : 4 ≤ len) :
    ∃ code, CopyCode offset len code ∧ ∀ o : Output, o.op + len ≤ o.dest.length → ∃ o', emitCopy o offset len = some o' ∧ o.Appends o' code := by
  have hloop : ∀ {fuel len : ℕ}, 4 ≤ len → len < 64 * fuel + 68 → ∃ code, CopyCode offset len code ∧ ∀ o : Output, o.op + len ≤ o.dest.length →
      ∃ o', ((emitCopyLoop offset (fuel + 1) o len).bind fun p =>
        if 64 < p.2 then (emitCopyLessThan64 p.1 offset 60).bind fun o => emitCopyLessThan64 o offset (p.2 - 60)
        else emitCopyLessThan64 p.1 offset p.2) = some o' ∧ o.Appends o' code := by
    intro fuel
    induction fuel with
    | zero =>
      intro len hlen hfuel
      by_cases htwo : 64 < len
      · have hcode := (copyCode_ok hpos hsmall (show 4 ≤ 60 by decide) (by decide)).append hpos (copyCode_ok hpos hsmall (show 4 ≤ len - 60 by omega) (by omega))
        rw [show 60 + (len - 60) = len by omega] at hcode
        refine ⟨_, hcode, fun o hroom => ?_⟩
        obtain ⟨o₁, hemit₁, ho₁⟩ := @emitCopyLessThan64_appends o offset 60 (by omega)
        have hlen₁ := copyCode_length offset 60
        have hop₁ := ho₁.op
        have hsize₁ := ho₁.size
        obtain ⟨o₂, hemit₂, ho₂⟩ := @emitCopyLessThan64_appends o₁ offset (len - 60) (by omega)
        refine ⟨o₂, ?_, ho₁.trans ho₂⟩
        rw [emitCopyLoop, if_neg (by omega), bind_some]
        rw [if_pos htwo, hemit₁, bind_some, hemit₂]
      · refine ⟨_, copyCode_ok hpos hsmall hlen (by omega), fun o hroom => ?_⟩
        obtain ⟨o₁, hemit₁, ho₁⟩ := @emitCopyLessThan64_appends o offset len (by omega)
        refine ⟨o₁, ?_, ho₁⟩
        rw [emitCopyLoop, if_neg (by omega), bind_some]
        dsimp only
        rw [if_neg htwo, hemit₁]
    | succ fuel ih =>
      intro len hlen hfuel
      by_cases hlong : 68 ≤ len
      · obtain ⟨code, hcode, hemit⟩ := @ih (len - 64) (by omega) (by omega)
        have hall := (copyCode_ok hpos hsmall (show 4 ≤ 64 by decide) (by decide)).append hpos hcode
        rw [show 64 + (len - 64) = len by omega] at hall
        refine ⟨_, hall, fun o hroom => ?_⟩
        obtain ⟨o₁, hemit₁, ho₁⟩ := @emitCopyLessThan64_appends o offset 64 (by omega)
        have hlen₁ := copyCode_length offset 64
        have hop₁ := ho₁.op
        have hsize₁ := ho₁.size
        obtain ⟨o₂, hemit₂, ho₂⟩ := hemit o₁ (by omega)
        refine ⟨o₂, ?_, ho₁.trans ho₂⟩
        rw [emitCopyLoop, if_pos hlong, hemit₁, bind_some]
        exact hemit₂
      · obtain ⟨code, hcode, hemit⟩ := @ih len hlen (by omega)
        refine ⟨code, hcode, fun o hroom => ?_⟩
        obtain ⟨o', hemit', ho'⟩ := hemit o hroom
        rw [emitCopyLoop, if_neg hlong] at hemit' ⊢
        exact ⟨o', hemit', ho'⟩
  obtain ⟨code, hcode, hemit⟩ := @hloop len len hlen (by omega)
  exact ⟨code, hcode, hemit⟩

/-- `n` bytes at two places are the same. -/
def Same (input : Bytes) (p q n : ℕ) : Prop := ∀ k < n, input[p + k]? = input[q + k]?

theorem Same.append {input : Bytes} {p q n m : ℕ} (h : Same input p q n) (h' : Same input (p + n) (q + n) m) : Same input p q (n + m) := by
  intro k hk
  by_cases hin : k < n
  · exact h k hin
  · have hrest := h' (k - n) (by omega)
    rwa [show p + n + (k - n) = p + k by omega, show q + n + (k - n) = q + k by omega] at hrest

theorem same_of_read {as : Bytes} {q : ℕ} (hp : Memory.read input p n = some as) (hq : Memory.read input q n = some as) : Same input p q n := by
  have hget : ∀ {r : ℕ}, Memory.read input r n = some as → ∀ k < n, as[k]? = input[r + k]? := by
    intro r hr k hk
    rw [Memory.read] at hr
    by_cases hin : r + n ≤ input.length
    · rw [if_pos hin] at hr
      rw [← Option.some.inj hr, List.getElem?_take_of_lt hk, List.getElem?_drop]
    · rw [if_neg hin] at hr
      exact absurd hr.symm (some_ne_none as)
  intro k hk
  rw [← hget hp k hk, ← hget hq k hk]

theorem ofLittleEndian_inj {as bs : Bytes} (hlen : as.length = bs.length) (h : ofLittleEndian as = ofLittleEndian bs) : as = bs := by
  rw [← littleEndian_ofLittleEndian as, ← littleEndian_ofLittleEndian bs, hlen, h]

theorem ofLittleEndian_take : ∀ {as : Bytes} {n : ℕ}, ofLittleEndian (as.take n) = ofLittleEndian as % 256 ^ n := by
  intro as
  induction as with
  | nil =>
    intro n
    rw [take_nil, ofLittleEndian, Nat.zero_mod]
  | cons b as ih =>
    intro n
    cases n with
    | zero => rw [take_zero, Nat.pow_zero, Nat.mod_one, ofLittleEndian]
    | succ n =>
      have hb : b.toNat < 256 := b.toNat_lt
      rw [take_succ_cons, ofLittleEndian, ofLittleEndian, ih, Nat.pow_succ, Nat.mul_comm (256 ^ n) 256, Nat.mod_mul,
        show (b.toNat + 256 * ofLittleEndian as) % 256 = b.toNat by omega, show (b.toNat + 256 * ofLittleEndian as) / 256 = ofLittleEndian as by omega]

theorem ofLittleEndian_drop : ∀ {as : Bytes} {n : ℕ}, ofLittleEndian (as.drop n) = ofLittleEndian as / 256 ^ n := by
  intro as
  induction as with
  | nil =>
    intro n
    rw [drop_nil, ofLittleEndian, Nat.zero_div]
  | cons b as ih =>
    intro n
    cases n with
    | zero => rw [drop_zero, Nat.pow_zero, Nat.div_one]
    | succ n =>
      have hb : b.toNat < 256 := b.toNat_lt
      rw [drop_succ_cons, ofLittleEndian, ih, Nat.pow_succ, Nat.mul_comm (256 ^ n) 256, ← Nat.div_div_eq_div_mul,
        show (b.toNat + 256 * ofLittleEndian as) / 256 = ofLittleEndian as by omega]

/-- **`FindLSBSetNonZero64`**: there is no bit below. -/
theorem findLSBSet_dvd : ∀ {bits n : ℕ}, 2 ^ findLSBSet bits n ∣ n := by
  intro bits
  induction bits with
  | zero => exact fun {n} => one_dvd n
  | succ bits ih =>
    intro n
    rw [findLSBSet]
    by_cases hodd : n % 2 = 1
    · rw [if_pos hodd]
      exact one_dvd n
    · rw [if_neg hodd, Nat.pow_succ]
      obtain ⟨k, hk⟩ := @ih (n / 2)
      exact ⟨k, by rw [Nat.mul_right_comm, ← hk]; omega⟩

theorem findLSBSet_le : ∀ {bits n : ℕ}, findLSBSet bits n ≤ bits := by
  intro bits
  induction bits with
  | zero => exact fun {n} => Nat.le_refl 0
  | succ bits ih =>
    intro n
    rw [findLSBSet]
    by_cases hodd : n % 2 = 1
    · rw [if_pos hodd]
      exact Nat.zero_le _
    · rw [if_neg hodd]
      exact Nat.succ_le_succ ih

theorem take_eq_of_xor {as bs : Bytes} (hlen : as.length = bs.length) :
    as.take (findLSBSet 64 (ofLittleEndian as ^^^ ofLittleEndian bs) / 8) = bs.take (findLSBSet 64 (ofLittleEndian as ^^^ ofLittleEndian bs) / 8) := by
  have hdvd := @findLSBSet_dvd 64 (ofLittleEndian as ^^^ ofLittleEndian bs)
  generalize findLSBSet 64 (ofLittleEndian as ^^^ ofLittleEndian bs) = j at hdvd
  have hpow : (2 : ℕ) ^ (8 * (j / 8)) ∣ ofLittleEndian as ^^^ ofLittleEndian bs := (pow_dvd_pow 2 (Nat.mul_div_le j 8)).trans hdvd
  have hxor := Nat.mod_eq_zero_of_dvd hpow
  rw [Nat.xor_mod_two_pow] at hxor
  have hsame : ∀ {a b : ℕ}, a ^^^ b = 0 → a = b := by
    intro a b h
    rw [← Nat.xor_zero a, ← Nat.xor_self b, ← Nat.xor_assoc, h, Nat.zero_xor]
  refine ofLittleEndian_inj (by rw [length_take, length_take, hlen]) ?_
  rw [ofLittleEndian_take, ofLittleEndian_take, show (256 : ℕ) = 2 ^ 8 by rfl, ← Nat.pow_mul]
  exact hsame hxor

variable {s1 limit : ℕ}

theorem matchBytes_spec (hlimit : limit ≤ input.length) : ∀ {fuel s2 matched : ℕ}, s1 + matched < s2 → s2 ≤ limit →
    limit - s2 < fuel → ∃ m, matchBytes input s1 limit fuel s2 matched = some (matched + m) ∧ s2 + m ≤ limit ∧ Same input (s1 + matched) s2 m := by
  intro fuel
  induction fuel with
  | zero =>
    intro s2 matched _ _ hfuel
    omega
  | succ fuel ih =>
    intro s2 matched hback hin hfuel
    rw [matchBytes]
    by_cases hend : s2 < limit
    · rw [if_pos hend, List.getElem?_eq_getElem (show s2 < input.length by omega), bind_some,
        List.getElem?_eq_getElem (show s1 + matched < input.length by omega), bind_some]
      by_cases hsame : input[s1 + matched] = input[s2]
      · rw [if_pos hsame]
        obtain ⟨m, hmatch, hle, hm⟩ := @ih (s2 + 1) (matched + 1) (by omega) (by omega) (by omega)
        refine ⟨1 + m, by rw [hmatch]; congr 1; omega, by omega, Same.append (fun k hk => ?_) hm⟩
        obtain rfl : k = 0 := by omega
        rw [Nat.add_zero, Nat.add_zero, List.getElem?_eq_getElem (show s2 < input.length by omega),
          List.getElem?_eq_getElem (show s1 + matched < input.length by omega), hsame]
      · rw [if_neg hsame]
        exact ⟨0, rfl, hin, fun k hk => absurd hk (Nat.not_lt_zero k)⟩
    · rw [if_neg hend]
      exact ⟨0, rfl, hin, fun k hk => absurd hk (Nat.not_lt_zero k)⟩

theorem matchWords_spec {input : Bytes} {s1 limit : ℕ} (hlimit : limit ≤ input.length) : ∀ {fuel s2 matched : ℕ}, s1 + matched < s2 → s2 ≤ limit →
    limit - s2 < fuel → ∃ m, matchWords input s1 limit fuel s2 matched = some (matched + m) ∧ s2 + m ≤ limit ∧ Same input (s1 + matched) s2 m := by
  intro fuel
  induction fuel with
  | zero =>
    intro s2 matched _ _ hfuel
    omega
  | succ fuel ih =>
    intro s2 matched hback hin hfuel
    rw [matchWords]
    by_cases hword : s2 + 8 ≤ limit
    · obtain ⟨hreadA, hlenA⟩ := @read_input input s2 8 (by omega)
      obtain ⟨hreadB, hlenB⟩ := @read_input input (s1 + matched) 8 (by omega)
      rw [if_pos hword, load64, hreadA, map_some, bind_some, load64, hreadB, map_some, bind_some]
      generalize (input.drop s2).take 8 = as at hreadA hlenA
      generalize (input.drop (s1 + matched)).take 8 = bs at hreadB hlenB
      by_cases hsame : ofLittleEndian as = ofLittleEndian bs
      · rw [if_pos hsame]
        obtain rfl := ofLittleEndian_inj (hlenA.trans hlenB.symm) hsame
        obtain ⟨m, hmatch, hle, hm⟩ := @ih (s2 + 8) (matched + 8) (by omega) hword (by omega)
        exact ⟨8 + m, by rw [hmatch]; congr 1; omega, by omega, Same.append (same_of_read hreadB hreadA) hm⟩
      · rw [if_neg hsame]
        have htake := @take_eq_of_xor as bs (hlenA.trans hlenB.symm)
        have hle : findLSBSet 64 (ofLittleEndian as ^^^ ofLittleEndian bs) / 8 ≤ 8 := Nat.div_le_of_le_mul findLSBSet_le
        generalize findLSBSet 64 (ofLittleEndian as ^^^ ofLittleEndian bs) / 8 = m at htake hle
        refine ⟨m, rfl, by omega, fun k hk => ?_⟩
        have hget : ∀ {r : ℕ} {cs : Bytes}, Memory.read input r 8 = some cs → r + 8 ≤ input.length → (cs.take m)[k]? = input[r + k]? := by
          intro r cs hr hin'
          rw [Memory.read, if_pos hin'] at hr
          rw [← Option.some.inj hr, take_take, Nat.min_eq_left hle, List.getElem?_take_of_lt hk, List.getElem?_drop]
        rw [← hget hreadB (by omega), ← hget hreadA (by omega), htake]
    · rw [if_neg hword]
      exact matchBytes_spec hlimit hback hin (Nat.lt_succ_self _)

/-- **`FindMatchLength`**: so many bytes are the same, up to the limit. -/
theorem findMatchLength_spec {input : Bytes} {s1 s2 : ℕ} (hback : s1 < s2) (hin : s2 ≤ input.length) :
    ∃ m, findMatchLength input s1 s2 input.length = some m ∧ s2 + m ≤ input.length ∧ Same input s1 s2 m := by
  obtain ⟨m, hmatch, hle, hm⟩ := @matchWords_spec input s1 input.length (Nat.le_refl _) (input.length - s2 + 1) s2 0 hback hin (Nat.lt_succ_self _)
  rw [Nat.zero_add] at hmatch
  exact ⟨m, hmatch, hle, hm⟩

end KVStores.Snappy
