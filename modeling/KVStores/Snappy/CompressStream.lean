import KVStores.Snappy.CompressRun

/-!
# The compressor over a source

`Compress` cuts its input into blocks, whatever the fragments of the source are, and appends what `CompressFragment` makes of each of
them to the sink.
-/

namespace KVStores.Snappy

open List Option

theorem hashTableSize_spec : ∀ {fuel k inputSize : ℕ}, k ≤ 14 → ∃ k', hashTableSize inputSize fuel (2 ^ k) = 2 ^ k' ∧ k' ≤ 14 := by
  intro fuel
  induction fuel with
  | zero => exact fun {k _} hk => ⟨k, rfl, hk⟩
  | succ fuel ih =>
    intro k inputSize hk
    rw [hashTableSize]
    by_cases hmore : 2 ^ k < kMaxHashTableSize ∧ 2 ^ k < inputSize
    · have hlt : k < 14 := (Nat.pow_lt_pow_iff_right Nat.one_lt_two).1 hmore.1
      rw [if_pos hmore, ← Nat.pow_succ]
      exact ih hlt
    · exact ⟨k, if_neg hmore, hk⟩

/-- **`GetHashTable`** picks a power of two. -/
theorem getHashTable_spec (inputSize : ℕ) : ∃ k, k ≤ 14 ∧ getHashTable inputSize = (2 ^ k, List.replicate (2 ^ k) 0) := by
  obtain ⟨k, hsize, hk⟩ := @hashTableSize_spec 14 8 inputSize (by decide)
  exact ⟨k, hk, by rw [getHashTable, show (256 : ℕ) = 2 ^ 8 by rfl, hsize]⟩

theorem fillScratch_spec {numToRead : ℕ} : ∀ {fuel : ℕ} {reader : Source} {scratch : Bytes}, [] ∉ reader → scratch.length ≤ numToRead →
    numToRead ≤ scratch.length + reader.flatten.length → numToRead < scratch.length + fuel →
    ∃ reader', fillScratch numToRead fuel reader scratch = some ((scratch ++ reader.flatten).take numToRead, reader') ∧ [] ∉ reader' ∧
      reader'.flatten = (scratch ++ reader.flatten).drop numToRead := by
  intro fuel
  induction fuel with
  | zero =>
    intro reader scratch _ hle _ hfuel
    omega
  | succ fuel ih =>
    intro reader scratch hne hle hin hfuel
    rw [fillScratch]
    by_cases hmore : scratch.length < numToRead
    · rw [if_pos hmore]
      have hpeek : peek reader ≠ [] := by
        intro hend
        rw [peek_eq_nil hne hend, flatten_nil, length_nil] at hin
        omega
      have hpos := length_pos_iff.2 hpeek
      have hall : ∃ n, min (peek reader).length (numToRead - scratch.length) = n ∧ 0 < n ∧ n ≤ (peek reader).length ∧ n ≤ numToRead - scratch.length :=
        ⟨_, rfl, by omega, Nat.min_le_left _ _, Nat.min_le_right _ _⟩
      obtain ⟨n, hn, hnpos, hnpeek, hnneed⟩ := hall
      rw [hn]
      have hlen : (scratch ++ (peek reader).take n).length = scratch.length + n := by
        rw [length_append, length_take, Nat.min_eq_left hnpeek]
      have hsame : scratch ++ (peek reader).take n ++ (skip n reader).flatten = scratch ++ reader.flatten := by
        have hfront : (peek reader).take n = reader.flatten.take n := by rw [peek_flatten reader, take_append_of_le_length hnpeek]
        rw [skip_flatten, hfront, append_assoc, take_append_drop]
      have hrest : (skip n reader).flatten.length = reader.flatten.length - n := by rw [skip_flatten, length_drop]
      obtain ⟨reader', hfill, hne', hreader'⟩ := @ih (skip n reader) (scratch ++ (peek reader).take n) (skip_nonempty hne) (by omega) (by omega) (by omega)
      rw [hsame] at hfill hreader'
      exact ⟨reader', hfill, hne', hreader'⟩
    · have hlen : scratch.length = numToRead := by omega
      refine ⟨reader, ?_, hne, ?_⟩
      · rw [if_neg hmore, ← hlen, take_left]
      · rw [← hlen, drop_left]

/-- **A block** is the next bytes, and the source goes on behind it. -/
theorem nextBlock_spec {numToRead : ℕ} {reader : Source} (hne : [] ∉ reader) (hin : numToRead ≤ reader.flatten.length) :
    ∃ reader', nextBlock numToRead reader = some (reader.flatten.take numToRead, reader') ∧ [] ∉ reader' ∧ reader'.flatten = reader.flatten.drop numToRead := by
  rw [nextBlock]
  by_cases hfront : numToRead ≤ (peek reader).length
  · refine ⟨skip numToRead reader, ?_, skip_nonempty hne, skip_flatten⟩
    rw [if_pos hfront, peek_flatten reader, take_append_of_le_length hfront]
  · have hall := peek_flatten reader
    have hlen := congrArg List.length hall
    rw [length_append] at hlen
    obtain ⟨reader', hfill, hne', hreader'⟩ := @fillScratch_spec numToRead (numToRead + 1) (skip (peek reader).length reader) (peek reader) (skip_nonempty hne)
      (by omega) (by omega) (by omega)
    rw [← hall] at hfill hreader'
    exact ⟨reader', by rw [if_neg hfront, hfill], hne', hreader'⟩

/-- The bytes that `CompressFragment` makes of a block. -/
def fragmentSize (block : Bytes) : ℕ :=
  ((compressFragment block ⟨List.replicate (maxCompressedLength block.length) 0, 0⟩ (getHashTable block.length).2 (getHashTable block.length).1).map
    Output.op).getD 0

@[grind =] def fragmentsSize : ℕ → Bytes → ℕ
  | 0, _ => 0
  | fuel + 1, input => if input = [] then 0 else fragmentSize (input.take kBlockSize) + fragmentsSize fuel (input.drop kBlockSize)

theorem compressBlock_spec {block : Bytes} (hsmall : block.length ≤ 2 ^ 16) :
    ∃ code, code.length = fragmentSize block ∧ (∀ rest out final, DescribesFrom rest (out ++ block) final → DescribesFrom (code ++ rest) out final) ∧
      60 * code.length ≤ 61 * block.length + 60 ∧ ∀ dest : Bytes, maxCompressedLength block.length ≤ dest.length →
        ∃ o', compressFragment block ⟨dest, 0⟩ (getHashTable block.length).2 (getHashTable block.length).1 = some o' ∧ Output.Appends ⟨dest, 0⟩ o' code := by
  obtain ⟨k, hk, htable⟩ := getHashTable_spec block.length
  obtain ⟨code, hmeans, hsize, hrun⟩ := @compressFragment_spec block hsmall k (by omega)
  rw [fragmentSize, htable]
  refine ⟨code, ?_, hmeans, hsize, hrun⟩
  obtain ⟨o', hfragment, ho'⟩ := hrun (List.replicate (maxCompressedLength block.length) 0) (by rw [length_replicate])
  have hop : o'.op = 0 + code.length := ho'.op
  rw [hfragment, map_some, getD_some, hop, Nat.zero_add]

/-- **The blocks** of whatever source, through whatever buffers of the sink. -/
theorem blockLoop_spec : ∀ {fuel : ℕ} {input : Bytes}, input.length < fuel →
    ∃ code, code.length = fragmentsSize fuel input ∧ (∀ rest out final, DescribesFrom rest (out ++ input) final → DescribesFrom (code ++ rest) out final) ∧
      60 * code.length ≤ 62 * input.length + 60 ∧
      ∀ (writer : Sink) (fresh : ℕ → UInt8) (reader : Source) (scratchOutput : Option Bytes) (appended : Bytes), [] ∉ reader → reader.flatten = input →
        (∀ scratch ∈ scratchOutput, maxCompressedLength (min input.length kBlockSize) ≤ scratch.length) →
        blockLoop writer fresh fuel reader input.length scratchOutput appended = some (appended ++ code) := by
  intro fuel
  induction fuel with
  | zero => exact fun h => absurd h (Nat.not_lt_zero _)
  | succ fuel ih =>
    intro input hfuel
    by_cases hend : input = []
    · refine ⟨[], ?_, fun rest out final hnext => ?_, Nat.zero_le _, fun writer fresh reader scratchOutput appended _ _ _ => ?_⟩
      · rw [fragmentsSize, if_pos hend]
        rfl
      · rwa [hend, append_nil] at hnext
      · rw [blockLoop, hend, append_nil]
        exact if_neg (Nat.lt_irrefl 0)
    have hpos := length_pos_iff.2 hend
    have hblock : (input.take kBlockSize).length = min input.length kBlockSize := by rw [length_take, Nat.min_comm]
    have hrest : (input.drop kBlockSize).length = input.length - kBlockSize := length_drop
    have hsize : kBlockSize = 2 ^ 16 := rfl
    obtain ⟨code, hcode, hmeans, hshort, hrun⟩ := @compressBlock_spec (input.take kBlockSize) (by omega)
    obtain ⟨code', hcode', hmeans', hshort', hrun'⟩ := @ih (input.drop kBlockSize) (by omega)
    refine ⟨code ++ code', ?_, fun rest out final hnext => ?_, ?_, fun writer fresh reader scratchOutput appended hne hreader hscratch => ?_⟩
    · rw [length_append, hcode, hcode', fragmentsSize, if_neg hend]
    · rw [append_assoc]
      refine hmeans _ out final (hmeans' rest _ final ?_)
      rwa [append_assoc, take_append_drop]
    · rw [length_append]
      by_cases hlast : input.length ≤ kBlockSize
      · have hnone : input.drop kBlockSize = [] := drop_eq_nil_of_le hlast
        have hcode'' : code'.length = 0 := by
          rw [hcode', hnone]
          cases fuel with
          | zero => rfl
          | succ fuel => exact if_pos rfl
        omega
      · omega
    · obtain ⟨reader', hnext, hne', hreader'⟩ := @nextBlock_spec (min input.length kBlockSize) reader hne (by rw [hreader]; exact Nat.min_le_left _ _)
      have htake : reader.flatten.take (min input.length kBlockSize) = input.take kBlockSize := by
        rw [hreader]
        by_cases hlast : input.length ≤ kBlockSize
        · rw [Nat.min_eq_left hlast, take_length, take_of_length_le hlast]
        · rw [Nat.min_eq_right (by omega)]
      have hdrop : reader'.flatten = input.drop kBlockSize := by
        rw [hreader', hreader]
        by_cases hlast : input.length ≤ kBlockSize
        · rw [Nat.min_eq_left hlast, drop_length, drop_eq_nil_of_le hlast]
        · rw [Nat.min_eq_right (by omega)]
      have hleft : input.length - min input.length kBlockSize = (input.drop kBlockSize).length := by omega
      have hkeep : ∀ {scratch : Bytes}, maxCompressedLength (min input.length kBlockSize) ≤ scratch.length →
          maxCompressedLength (min (input.drop kBlockSize).length kBlockSize) ≤ scratch.length := by
        intro scratch h
        refine le_trans ?_ h
        rw [maxCompressedLength, maxCompressedLength]
        omega
      rw [hblock] at hrun
      rw [blockLoop, if_pos hpos]
      dsimp only
      rw [hnext, bind_some, htake, hleft]
      -- the buffer of the sink, or the one of the compressor
      have hfinish : ∀ {dest : Bytes} {scratch : Bytes} {o' : Output}, Output.Appends ⟨dest, 0⟩ o' code →
          maxCompressedLength (min input.length kBlockSize) ≤ scratch.length →
          blockLoop writer fresh fuel reader' (input.drop kBlockSize).length (some scratch) (appended ++ o'.dest.take o'.op) = some (appended ++ (code ++ code')) := by
        intro dest scratch o' ho' hroom
        have hwritten : o'.dest.take o'.op = code := ho'.written
        rw [hwritten, hrun' writer fresh reader' (some scratch) _ hne' hdrop fun s hs => Option.some.inj hs ▸ hkeep hroom, append_assoc]
      have hbuffer : maxCompressedLength (min input.length kBlockSize) ≤
          (scratchOutput.getD ((List.range (maxCompressedLength (min input.length kBlockSize))).map fresh)).length := by
        cases scratchOutput with
        | none => rw [getD_none, length_map, length_range]
        | some scratch => exact hscratch scratch rfl
      rcases hbuf : writer.getAppendBuffer appended (maxCompressedLength (min input.length kBlockSize)) with _ | dest
      · obtain ⟨o', hfragment, ho'⟩ := hrun _ hbuffer
        rw [hfragment, bind_some]
        have hdest : o'.dest.length = _ := ho'.size
        exact hfinish ho' (hdest ▸ hbuffer)
      · obtain ⟨o', hfragment, ho'⟩ := hrun dest (writer.enough appended _ dest hbuf)
        dsimp only
        rw [hfragment, bind_some]
        exact hfinish ho' hbuffer

theorem encode32_eq (v : ℕ) : encode32 v = varintLoop 4 v := encodeVarint32_eq v

theorem encode32_length (v : ℕ) : (encode32 v).length ≤ 5 := by
  have hlen : ∀ {k v : ℕ}, (varintLoop k v).length ≤ k + 1 := by
    intro k
    induction k with
    | zero => exact fun {v} => Nat.le_refl 1
    | succ k ih =>
      intro v
      rw [varintLoop]
      by_cases hmore : 128 ≤ v
      · rw [if_pos hmore]
        exact Nat.succ_le_succ ih
      · rw [if_neg hmore]
        exact Nat.succ_le_succ (Nat.zero_le _)
  rw [encode32_eq]
  exact hlen

def tagsSize (input : Bytes) : ℕ := fragmentsSize (input.length + 1) input

/-- **`Compress`** appends the length and tags that mean the input, however the source is cut and whatever buffers the sink has. -/
theorem compress_spec {input : Bytes} (hsmall : input.length < 2 ^ 32) :
    ∃ tags, tags.length = tagsSize input ∧ DescribesFrom tags [] input ∧ (encode32 input.length ++ tags).length ≤ maxCompressedLength input.length ∧
      ∀ (writer : Sink) (fresh : ℕ → UInt8) (reader : Source), [] ∉ reader → reader.flatten = input →
        compress reader writer fresh = some (encode32 input.length ++ tags) := by
  obtain ⟨tags, hsize, hmeans, hshort, hrun⟩ := @blockLoop_spec (input.length + 1) input (Nat.lt_succ_self _)
  refine ⟨tags, hsize, ?_, ?_, fun writer fresh reader hne hreader => ?_⟩
  · have hall := hmeans [] [] input (describesFrom_nil _)
    rwa [append_nil] at hall
  · have hheader := encode32_length input.length
    rw [length_append, maxCompressedLength]
    omega
  · rw [compress, hreader, Nat.mod_eq_of_lt hsmall]
    exact hrun writer fresh reader none _ hne hreader fun _ h => absurd h.symm (some_ne_none _)

end KVStores.Snappy
