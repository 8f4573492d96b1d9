import KVStores.LevelDb.LogReader

/-!
# Fragments in a log file

What a log file is made of, as the writer lays it out and the reader finds it.

* `readPhysicalRecord_frame`: **a whole fragment is read back**; `readPhysicalRecord_torn`:
  a fragment that was cut off is not.
-/

namespace KVStores.LevelDb.Log

open List

abbrev Fragment := RecordType × Bytes

def frame (crc : Crc32c) (f : Fragment) : Bytes := headerBytes crc f.1 f.2 ++ f.2

def trailer (o : ℕ) : Bytes := if kBlockSize - o < kHeaderSize then List.replicate (kBlockSize - o) 0 else []

def start (o : ℕ) : ℕ := if kBlockSize - o < kHeaderSize then 0 else o

/-- Fragments, from offset `o` of a block on. -/
@[grind =] def layout (crc : Crc32c) : ℕ → List Fragment → Bytes
  | _, [] => []
  | o, f :: fs => trailer o ++ (frame crc f ++ layout crc (start o + kHeaderSize + f.2.length) fs)

@[grind =] def offsetAfter : ℕ → List Fragment → ℕ
  | o, [] => o
  | o, f :: fs => offsetAfter (start o + kHeaderSize + f.2.length) fs

@[grind =] def Fits : ℕ → List Fragment → Prop
  | _, [] => True
  | o, f :: fs => start o + kHeaderSize + f.2.length ≤ kBlockSize ∧ Fits (start o + kHeaderSize + f.2.length) fs

variable {crc : Crc32c} {f : Fragment} {fs gs : List Fragment} {o : ℕ}

@[simp] theorem headerBytes_length (t : RecordType) (data : Bytes) : (headerBytes crc t data).length = kHeaderSize := by
  simp [headerBytes, kHeaderSize]

@[simp] theorem frame_length (f : Fragment) : (frame crc f).length = kHeaderSize + f.2.length := by
  rw [frame, length_append, headerBytes_length]

theorem trailer_length_lt (o : ℕ) : (trailer o).length < kHeaderSize := by
  unfold trailer
  by_cases h : kBlockSize - o < kHeaderSize
  · rwa [if_pos h, length_replicate]
  · rw [if_neg h]
    exact Nat.succ_pos _

theorem start_le (ho : o ≤ kBlockSize) : start o + kHeaderSize ≤ kBlockSize := by
  unfold start kHeaderSize
  unfold kBlockSize at *
  by_cases h : 32768 - o < 7
  · rw [if_pos h]; omega
  · rw [if_neg h]; omega

theorem layout_block (fs : List Fragment) : layout crc kBlockSize fs = layout crc 0 fs := by
  cases fs with
  | nil => rfl
  | cons f fs => rfl

theorem layout_append : ∀ (fs : List Fragment) (o : ℕ), layout crc o (fs ++ gs) = layout crc o fs ++ layout crc (offsetAfter o fs) gs
  | [], _ => rfl
  | f :: fs, o => by
    rw [cons_append, layout, layout, offsetAfter, layout_append fs]
    simp only [append_assoc]

theorem offsetAfter_append : ∀ (fs : List Fragment) (o : ℕ), offsetAfter o (fs ++ gs) = offsetAfter (offsetAfter o fs) gs
  | [], _ => rfl
  | f :: fs, o => by rw [cons_append, offsetAfter, offsetAfter, offsetAfter_append fs]

theorem fits_append : ∀ (fs : List Fragment) (o : ℕ), Fits o (fs ++ gs) ↔ Fits o fs ∧ Fits (offsetAfter o fs) gs
  | [], _ => by simp [Fits, offsetAfter]
  | f :: fs, o => by rw [cons_append, Fits, Fits, offsetAfter, fits_append fs, and_assoc]

theorem offsetAfter_le : ∀ (fs : List Fragment) {o : ℕ}, o ≤ kBlockSize → Fits o fs → offsetAfter o fs ≤ kBlockSize
  | [], _, ho, _ => ho
  | _ :: fs, _, _, hf => offsetAfter_le fs hf.1 hf.2

theorem fits_block (fs : List Fragment) : Fits kBlockSize fs ↔ Fits 0 fs := by
  cases fs with
  | nil => rfl
  | cons f fs => rfl

/-- The reader is at offset `o` of a block with `x` in front of it. -/
structure Reader.At (r : Reader) (o : ℕ) (x : Bytes) : Prop where
  text : r.buffer ++ r.rest = x
  last : r.eof = true → r.rest = [] ∧ r.buffer.length ≤ kBlockSize - o
  whole : r.eof = false → r.buffer.length = kBlockSize - o
  initial : r.initialOffset = 0

theorem Reader.at_new (file : Bytes) (checksum : Bool) : (Reader.new file checksum 0).At kBlockSize file where
  text := rfl
  last h := by cases h
  whole _ := by simp [Reader.new]
  initial := rfl

variable {r : Reader} {x : Bytes}

theorem Reader.At.remaining (h : r.At o x) : r.remaining = x.length := by
  rw [Reader.remaining, ← h.text, length_append]

theorem Reader.At.readBlock (h : r.At o x) (he : r.eof = false) : r.readBlock.At 0 (x.drop (kBlockSize - o)) := by
  have hrest : r.rest = x.drop (kBlockSize - o) := by rw [← h.text, ← h.whole he, drop_left]
  refine ⟨?_, ?_, ?_, h.initial⟩
  · rw [← hrest]
    exact take_append_drop _ _
  · intro hlast
    have hlt : (r.rest.take kBlockSize).length < kBlockSize := of_decide_eq_true hlast
    rw [length_take] at hlt
    refine ⟨drop_eq_nil_of_le (by omega), ?_⟩
    show (r.rest.take kBlockSize).length ≤ kBlockSize - 0
    rw [length_take]
    omega
  · intro hlast
    have hge : ¬(r.rest.take kBlockSize).length < kBlockSize := of_decide_eq_false hlast
    show (r.rest.take kBlockSize).length = kBlockSize - 0
    rw [length_take] at *
    omega

theorem reportCorruption_buffer (r : Reader) (n : ℕ) (s : String) : (r.reportCorruption n s).buffer = r.buffer := by
  unfold Reader.reportCorruption
  split <;> rfl

theorem reportCorruption_rest (r : Reader) (n : ℕ) (s : String) : (r.reportCorruption n s).rest = r.rest := by
  unfold Reader.reportCorruption
  split <;> rfl

theorem reportCorruption_eof (r : Reader) (n : ℕ) (s : String) : (r.reportCorruption n s).eof = r.eof := by
  unfold Reader.reportCorruption
  split <;> rfl

theorem reportCorruption_initialOffset (r : Reader) (n : ℕ) (s : String) : (r.reportCorruption n s).initialOffset = r.initialOffset := by
  unfold Reader.reportCorruption
  split <;> rfl

theorem Reader.At.report (h : r.At o x) (n : ℕ) (s : String) : (r.reportCorruption n s).At o x := by
  refine ⟨?_, ?_, ?_, ?_⟩
  · rw [reportCorruption_buffer, reportCorruption_rest]; exact h.text
  · rw [reportCorruption_buffer, reportCorruption_rest, reportCorruption_eof]; exact h.last
  · rw [reportCorruption_buffer, reportCorruption_eof]; exact h.whole
  · rw [reportCorruption_initialOffset]; exact h.initial

theorem extendSign_type (t : RecordType) : Reader.extendSign (UInt8.ofNat t.toNat) = t.toNat := by
  cases t <;> rfl

theorem parseHeader_frame {z : Bytes} (hbuf : r.buffer = frame crc f ++ z) (hlen : f.2.length < 65536)
    (hinit : r.initialOffset = 0) : r.parseHeader crc = (f.1.toNat, f.2, { r with buffer := z }) := by
  obtain ⟨t, d⟩ := f
  have hbuf : r.buffer = littleEndian 4 (mask (crc.extend (crc.value [UInt8.ofNat t.toNat]) d)).toNat ++
      (littleEndian 2 d.length ++ (UInt8.ofNat t.toNat :: (d ++ z))) := by
    rw [hbuf]
    simp [frame, headerBytes]
  set c := littleEndian 4 (mask (crc.extend (crc.value [UInt8.ofNat t.toNat]) d)).toNat with hc
  have hclen : c.length = 4 := littleEndian_length 4 _
  have h4 : r.buffer.take 4 = c := by rw [hbuf]; exact take_left' hclen
  have hdrop4 : r.buffer.drop 4 = littleEndian 2 d.length ++ (UInt8.ofNat t.toNat :: (d ++ z)) := by
    rw [hbuf]; exact drop_left' hclen
  have hlength : ofLittleEndian ((r.buffer.drop 4).take 2) = d.length := by
    rw [hdrop4, take_left' (littleEndian_length 2 _), ofLittleEndian_littleEndian_of_lt hlen]
  have hdrop6 : r.buffer.drop 6 = UInt8.ofNat t.toNat :: (d ++ z) := by
    have : r.buffer.drop 6 = (r.buffer.drop 4).drop 2 := by rw [drop_drop]
    rw [this, hdrop4, drop_left' (littleEndian_length 2 _)]
  have hdrop7 : r.buffer.drop kHeaderSize = d ++ z := by
    have : r.buffer.drop kHeaderSize = (r.buffer.drop 6).drop 1 := by rw [drop_drop]; rfl
    rw [this, hdrop6, drop_one, tail_cons]
  have hcrc : crc.value ((r.buffer.drop 6).take (1 + d.length)) = unmask (UInt32.ofNat (ofLittleEndian (r.buffer.take 4))) := by
    have h256 : (mask (crc.extend (crc.value [UInt8.ofNat t.toNat]) d)).toNat < 256 ^ 4 := UInt32.toNat_lt _
    rw [h4, hc, ofLittleEndian_littleEndian_of_lt h256, UInt32.ofNat_toNat, unmask_mask, hdrop6, Nat.add_comm 1,
      take_succ_cons, take_left, Crc32c.value, Crc32c.value, crc.extend_append]
    rfl
  have htotal : r.buffer.length = kHeaderSize + d.length + z.length := by
    have := congrArg List.length hdrop7
    rw [length_drop, length_append] at this
    have h7 : kHeaderSize ≤ r.buffer.length := by
      rw [hbuf, length_append, length_append, length_cons, hclen, littleEndian_length]
      unfold kHeaderSize
      omega
    omega
  have hz : r.buffer.drop (kHeaderSize + d.length) = z := by
    rw [← drop_drop, hdrop7, drop_left]
  unfold Reader.parseHeader
  simp only [hlength, hdrop6, headD_cons, extendSign_type]
  rw [if_neg (by omega), if_neg (by cases t <;> simp [RecordType.toNat]), if_neg (by rw [← hdrop6]; simp [hcrc])]
  have hnot : ¬((r.endOfBufferOffset : ℤ) - z.length - kHeaderSize - d.length) % 2 ^ 64 < (r.initialOffset : ℤ) := by
    rw [hinit]
    exact not_lt.2 (Int.emod_nonneg _ (by norm_num))
  rw [hz, if_neg hnot, hdrop7, take_left]

theorem Reader.At.buffer_of_lt (h : r.At o x) (he : r.eof = true) : r.buffer = x := by
  rw [← h.text, (h.last he).1, append_nil]

theorem Reader.At.take_buffer {xs ys : Bytes} (h : r.At o (xs ++ ys)) (hxs : xs.length ≤ kBlockSize - o) :
    ∃ z, r.buffer = xs ++ z ∧ z ++ r.rest = ys := by
  have hle : xs.length ≤ r.buffer.length := by
    cases he : r.eof with
    | true =>
      rw [h.buffer_of_lt he, length_append]
      exact Nat.le_add_right _ _
    | false => rwa [h.whole he]
  obtain ⟨z, hz⟩ : ∃ z, r.buffer = xs ++ z := by
    have htake : r.buffer.take xs.length = xs := by
      have := congrArg (List.take xs.length) h.text
      rwa [take_append_of_le_length hle, take_left] at this
    exact ⟨r.buffer.drop xs.length, by rw [← htake, length_take, Nat.min_eq_left hle, take_append_drop]⟩
  refine ⟨z, hz, ?_⟩
  have := h.text
  rw [hz, append_assoc] at this
  exact append_cancel_left this

theorem readPhysicalRecord_frame {y : Bytes} (h : r.At o (trailer o ++ (frame crc f ++ y)))
    (hfit : start o + kHeaderSize + f.2.length ≤ kBlockSize) :
    ∃ r', r.readPhysicalRecord crc = (f.1.toNat, f.2, r') ∧ r'.At (start o + kHeaderSize + f.2.length) y ∧ r'.reports = r.reports := by
  have hlen : f.2.length < 65536 := by unfold kBlockSize at hfit; omega
  -- the frame is in a buffer of a reader that is at the beginning of it
  have main : ∀ {r : Reader}, r.At (start o) (frame crc f ++ y) → ∃ r', r.parseHeader crc = (f.1.toNat, f.2, r') ∧
      r'.At (start o + kHeaderSize + f.2.length) y ∧ r'.reports = r.reports ∧ ¬r.buffer.length < kHeaderSize := by
    intro r h
    obtain ⟨z, hbuf, hy⟩ := h.take_buffer (by rw [frame_length]; omega)
    have hbl : r.buffer.length = kHeaderSize + f.2.length + z.length := by rw [hbuf, length_append, frame_length]
    refine ⟨{ r with buffer := z }, parseHeader_frame hbuf hlen h.initial, ⟨hy, ?_, ?_, h.initial⟩, rfl, by omega⟩
    · intro he
      have := h.last he
      exact ⟨this.1, by show z.length ≤ _; omega⟩
    · intro he
      have := h.whole he
      show z.length = _
      omega
  unfold Reader.readPhysicalRecord
  by_cases ht : kBlockSize - o < kHeaderSize
  · -- no room for a header: the fragment is in the next block
    have hs : start o = 0 := by rw [start, if_pos ht]
    have htr : (trailer o).length = kBlockSize - o := by rw [trailer, if_pos ht, length_replicate]
    have he : r.eof = false := by
      cases he : r.eof with
      | false => rfl
      | true =>
        have h1 := (h.last he).2
        rw [h.buffer_of_lt he, length_append, length_append, frame_length] at h1
        omega
    have hnext : r.readBlock.At (start o) (frame crc f ++ y) := by
      have := h.readBlock he
      rwa [← htr, drop_left, ← hs] at this
    obtain ⟨r', hp, hat, hrep, hge⟩ := main hnext
    rw [if_pos (by rw [h.whole he]; exact ht), if_pos he]
    rw [if_neg hge]
    exact ⟨r', hp, hat, hrep⟩
  · have hs : start o = o := by rw [start, if_neg ht]
    have hat : r.At (start o) (frame crc f ++ y) := by
      rw [trailer, if_neg ht, nil_append] at h
      rwa [hs]
    obtain ⟨r', hp, hat, hrep, hge⟩ := main hat
    rw [if_neg hge]
    exact ⟨r', hp, hat, hrep⟩

theorem readPhysicalRecord_nil (crc : Crc32c) (h : r.At o []) :
    ∃ r', r.readPhysicalRecord crc = (kEof, [], r') ∧ r'.reports = r.reports := by
  have hnil : r.buffer = [] ∧ r.rest = [] := append_eq_nil_iff.1 h.text
  unfold Reader.readPhysicalRecord
  rw [if_pos (by rw [hnil.1]; exact Nat.succ_pos _)]
  cases he : r.eof with
  | true =>
    rw [if_neg (by simp)]
    exact ⟨r, by rw [Reader.atEnd, if_pos (by rw [hnil.1]; rfl)], rfl⟩
  | false =>
    have hb : r.readBlock.buffer = [] := by show r.rest.take _ = []; rw [hnil.2, take_nil]
    rw [if_pos rfl]
    rw [if_pos (by rw [hb]; exact Nat.succ_pos _)]
    exact ⟨r.readBlock, by rw [Reader.atEnd, if_pos (by rw [hb]; rfl)], rfl⟩

theorem atEnd_fst (r : Reader) : ∃ r', r.atEnd = (kEof, [], r') := by
  unfold Reader.atEnd
  by_cases h : r.buffer.length = 0
  · exact ⟨_, by rw [if_pos h]⟩
  · exact ⟨_, by rw [if_neg h]⟩

/-- **A fragment that was cut off is not read**: the file ends, at once or behind it. -/
theorem readPhysicalRecord_torn {m : ℕ} (h : r.At o ((trailer o ++ frame crc f).take m))
    (hfit : start o + kHeaderSize + f.2.length ≤ kBlockSize) (hm : m < (trailer o ++ frame crc f).length) :
    ∃ r', r.readPhysicalRecord crc = (kEof, [], r') ∨ r.readPhysicalRecord crc = (kBadRecord, [], r') ∧ ∃ o', r'.At o' [] := by
  have hlen : f.2.length < 65536 := by unfold kBlockSize at hfit; omega
  -- a part of the frame in the buffer, and nothing behind it
  have main : ∀ {r : Reader} {n : ℕ}, r.buffer = (frame crc f).take n → n < (frame crc f).length → r.rest = [] → r.eof = true →
      r.initialOffset = 0 → ¬r.buffer.length < kHeaderSize → ∃ r', r.parseHeader crc = (kBadRecord, [], r') ∧ ∃ o', r'.At o' [] := by
    intro r n hbuf hn hrest he hinit hge
    have hbl : r.buffer.length = n := by rw [hbuf, length_take]; omega
    have hlength : ofLittleEndian ((r.buffer.drop 4).take 2) = f.2.length := by
      have h6 : 6 ≤ n := by unfold kHeaderSize at hge; omega
      have : (r.buffer.drop 4).take 2 = ((frame crc f).drop 4).take 2 := by
        rw [hbuf, drop_take, take_take, Nat.min_eq_left (by omega)]
      rw [this]
      have hd : (frame crc f).drop 4 = littleEndian 2 f.2.length ++ ([UInt8.ofNat f.1.toNat] ++ f.2) := by
        unfold frame headerBytes
        exact drop_left' (littleEndian_length 4 _)
      rw [hd, take_left' (littleEndian_length 2 _), ofLittleEndian_littleEndian_of_lt hlen]
    unfold Reader.parseHeader
    rw [frame_length] at hn
    rw [if_pos (by omega)]
    have hat : ({ r with buffer := [] } : Reader).At 0 [] := by
      refine ⟨?_, ?_, ?_, hinit⟩
      · rw [hrest, nil_append]
      · intro _
        exact ⟨hrest, Nat.zero_le _⟩
      · intro he'
        exact absurd he (by rw [show r.eof = false from he']; exact Bool.false_ne_true)
    exact ⟨_, rfl, 0, hat.report _ _⟩
  unfold Reader.readPhysicalRecord
  by_cases ht : kBlockSize - o < kHeaderSize
  · have htr : (trailer o).length = kBlockSize - o := by rw [trailer, if_pos ht, length_replicate]
    cases he : r.eof with
    | true =>
      have hlt : r.buffer.length < kHeaderSize := lt_of_le_of_lt (h.last he).2 ht
      obtain ⟨r', hr'⟩ := atEnd_fst r
      exact ⟨r', Or.inl (by rw [if_pos hlt, if_neg (by simp)]; exact hr')⟩
    | false =>
      have hnext := h.readBlock he
      rw [if_pos (by rw [h.whole he]; exact ht), if_pos rfl]
      by_cases hge : r.readBlock.buffer.length < kHeaderSize
      · obtain ⟨r', hr'⟩ := atEnd_fst r.readBlock
        exact ⟨r', Or.inl (by rw [if_pos hge]; exact hr')⟩
      · rw [if_neg hge]
        have hrest : r.readBlock.buffer ++ r.readBlock.rest = (frame crc f).take (m - (kBlockSize - o)) := by
          rw [hnext.text, drop_take, ← htr, drop_left]
        rw [length_append, htr] at hm
        have hshort : (r.readBlock.buffer ++ r.readBlock.rest).length < kBlockSize := by
          rw [hrest, length_take, frame_length]
          rw [frame_length] at hm
          omega
        have heof : r.readBlock.eof = true := by
          cases he' : r.readBlock.eof with
          | true => rfl
          | false =>
            have := hnext.whole he'
            rw [length_append] at hshort
            omega
        have hend := (hnext.last heof).1
        rw [hend, append_nil] at hrest
        have hpos : 0 < (frame crc f).length := by rw [frame_length]; exact Nat.add_pos_left (Nat.succ_pos _) _
        obtain ⟨r', hp, hat⟩ := main hrest (by omega) hend heof hnext.initial hge
        exact ⟨r', Or.inr ⟨hp, hat⟩⟩
  · rw [trailer, if_neg ht, nil_append] at h hm
    have hs : start o = o := by rw [start, if_neg ht]
    have heof : r.eof = true := by
      cases he : r.eof with
      | true => rfl
      | false =>
        have h1 := h.whole he
        have h2 := congrArg List.length h.text
        rw [length_append, length_take] at h2
        rw [frame_length] at h2 hm
        omega
    by_cases hge : r.buffer.length < kHeaderSize
    · obtain ⟨r', hr'⟩ := atEnd_fst r
      exact ⟨r', Or.inl (by rw [if_pos hge, if_neg (by simp [heof])]; exact hr')⟩
    · rw [if_neg hge]
      obtain ⟨r', hp, hat⟩ := main (h.buffer_of_lt heof) hm (h.last heof).1 heof h.initial hge
      exact ⟨r', Or.inr ⟨hp, hat⟩⟩

end KVStores.LevelDb.Log
