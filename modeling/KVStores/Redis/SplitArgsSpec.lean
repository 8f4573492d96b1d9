import KVStores.Redis.SplitArgs

/-!
# The arguments of a line
-/

namespace KVStores.Redis.SplitArgs

open List

open Aof

def HexFront (s : List UInt8) : Prop := ∃ a b s', s = 120 :: a :: b :: s' ∧ isHexDigit a = true ∧ isHexDigit b = true

/-- What stands behind an opening double quote: the string, and what comes behind the closing quote. -/
inductive DoubleQuoted : List UInt8 → List UInt8 → List UInt8 → Prop
  | close {rest : List UInt8} : DoubleQuoted (34 :: rest) [] rest
  | hex {a b : UInt8} {s v rest : List UInt8} (ha : isHexDigit a = true) (hb : isHexDigit b = true) (h : DoubleQuoted s v rest) :
    DoubleQuoted (92 :: 120 :: a :: b :: s) (UInt8.ofNat (hexDigitToInt a * 16 + hexDigitToInt b) :: v) rest
  | escape {c : UInt8} {s v rest : List UInt8} (hc : ¬ HexFront (c :: s)) (h : DoubleQuoted s v rest) : DoubleQuoted (92 :: c :: s) (unescape c :: v) rest
  | char {c : UInt8} {s v rest : List UInt8} (hc : c ≠ 92 ∧ c ≠ 34) (h : DoubleQuoted s v rest) : DoubleQuoted (c :: s) (c :: v) rest

/-- What stands behind an opening single quote: a backslash is one, unless it stands in front of a single quote. -/
inductive SingleQuoted : List UInt8 → List UInt8 → List UInt8 → Prop
  | close {rest : List UInt8} : SingleQuoted (39 :: rest) [] rest
  | quote {s v rest : List UInt8} (h : SingleQuoted s v rest) : SingleQuoted (92 :: 39 :: s) (39 :: v) rest
  | char {c : UInt8} {s v rest : List UInt8} (hc : c ≠ 39) (hback : c = 92 → s.head? ≠ some 39) (h : SingleQuoted s v rest) : SingleQuoted (c :: s) (c :: v) rest

def Closes (rest : List UInt8) : Prop := ∀ c ∈ rest.head?, isspace c = true

def IsSeparator (c : UInt8) : Prop := c = 32 ∨ c = 10 ∨ c = 13 ∨ c = 9

instance (c : UInt8) : Decidable (IsSeparator c) := inferInstanceAs (Decidable (_ ∨ _))

/-- **An argument**: characters, up to a separator, or to quotes with which it ends. -/
inductive Token : List UInt8 → List UInt8 → List UInt8 → Prop
  | atEnd : Token [] [] []
  | separator {c : UInt8} {rest : List UInt8} (hc : IsSeparator c) : Token (c :: rest) [] rest
  | inq {s v rest : List UInt8} (h : DoubleQuoted s v rest) (hrest : Closes rest) : Token (34 :: s) v rest
  | insq {s v rest : List UInt8} (h : SingleQuoted s v rest) (hrest : Closes rest) : Token (39 :: s) v rest
  | char {c : UInt8} {s v rest : List UInt8} (hc : ¬ IsSeparator c ∧ c ≠ 34 ∧ c ≠ 39) (h : Token s v rest) : Token (c :: s) (c :: v) rest

/-- **Quotes that are wrong**: not closed, or closed in front of something else than a blank. -/
inductive BadToken : List UInt8 → Prop
  | inqOpen {s : List UInt8} (h : ∀ v rest, ¬ DoubleQuoted s v rest) : BadToken (34 :: s)
  | inqFollowed {s v rest : List UInt8} (h : DoubleQuoted s v rest) (hrest : ¬ Closes rest) : BadToken (34 :: s)
  | insqOpen {s : List UInt8} (h : ∀ v rest, ¬ SingleQuoted s v rest) : BadToken (39 :: s)
  | insqFollowed {s v rest : List UInt8} (h : SingleQuoted s v rest) (hrest : ¬ Closes rest) : BadToken (39 :: s)
  | char {c : UInt8} {s : List UInt8} (hc : ¬ IsSeparator c ∧ c ≠ 34 ∧ c ≠ 39) (h : BadToken s) : BadToken (c :: s)

/-- **A line**: arguments, with blanks between them. -/
inductive Line : List UInt8 → List (List UInt8) → Prop
  | blanks {b : List UInt8} (hb : ∀ c ∈ b, isspace c = true) : Line b []
  | token {b s v rest : List UInt8} {c : UInt8} {vs : List (List UInt8)} (hb : ∀ c ∈ b, isspace c = true) (hc : isspace c = false)
    (htoken : Token (c :: s) v rest) (h : Line rest vs) : Line (b ++ c :: s) (v :: vs)

/-- **A line with quotes that are wrong**, behind some arguments. -/
inductive BadLine : List UInt8 → Prop
  | here {b s : List UInt8} {c : UInt8} (hb : ∀ c ∈ b, isspace c = true) (hc : isspace c = false) (h : BadToken (c :: s)) : BadLine (b ++ c :: s)
  | later {b s v rest : List UInt8} {c : UInt8} (hb : ∀ c ∈ b, isspace c = true) (hc : isspace c = false) (htoken : Token (c :: s) v rest)
    (h : BadLine rest) : BadLine (b ++ c :: s)

variable {q q' : Quotes} {current current' p p' s v rest : List UInt8} {c : UInt8}

theorem tokenLoop_next (h : tokenStep q current p = .next q' current' p') : tokenLoop q current p = tokenLoop q' current' p' := by
  rw [tokenLoop.eq_def, h]

theorem tokenLoop_done (h : tokenStep q current p = .done current' p') : tokenLoop q current p = .token current' p' := by
  rw [tokenLoop.eq_def, h]

theorem tokenLoop_err (h : tokenStep q current p = .err) : tokenLoop q current p = .err := by
  rw [tokenLoop.eq_def, h]

theorem hexEscape_front {a b : UInt8} (ha : isHexDigit a = true) (hb : isHexDigit b = true) :
    hexEscape (120 :: a :: b :: s) = some (some (UInt8.ofNat (hexDigitToInt a * 16 + hexDigitToInt b), s)) := by
  unfold hexEscape
  dsimp only
  rw [if_pos rfl, if_pos ha, if_pos hb]

theorem hexEscape_none (h : ¬ HexFront s) : hexEscape (s ++ [0]) = some none := by
  cases s with
  | nil => rfl
  | cons c1 s =>
    rw [cons_append, hexEscape.eq_def]
    dsimp only
    by_cases hx : c1 = 120
    · rw [if_pos hx]
      cases s with
      | nil => rfl
      | cons c2 s =>
        dsimp only [cons_append]
        by_cases h2 : isHexDigit c2 = true
        · rw [if_pos h2]
          cases s with
          | nil => rfl
          | cons c3 s =>
            dsimp only [cons_append]
            by_cases h3 : isHexDigit c3 = true
            · exact absurd ⟨c2, c3, s, by rw [hx], h2, h3⟩ h
            · rw [if_neg h3]
        · rw [if_neg h2]
    · rw [if_neg hx]

theorem closing_closes (h : Closes rest) : closing current (rest ++ [0]) = .done current (rest ++ [0]) := by
  cases rest with
  | nil => rfl
  | cons c rest =>
    have hc := h c rfl
    rw [cons_append, closing, if_neg fun hbad => by rw [hc] at hbad; cases hbad.2]

theorem closing_err (h0 : (0 : UInt8) ∉ rest) (h : ¬ Closes rest) : closing current (rest ++ [0]) = .err := by
  cases rest with
  | nil => exact absurd (fun c hc => by cases hc) h
  | cons c rest =>
    have hzero : c ≠ 0 := fun hc => h0 (hc ▸ mem_cons_self)
    have hspace : isspace c = false := by
      by_contra hspace
      refine h fun b hb => ?_
      cases hb
      exact Bool.eq_true_of_not_eq_false hspace
    rw [cons_append, closing, if_pos ⟨hzero, hspace⟩]

theorem inq_hex (current : List UInt8) {a b : UInt8} (ha : isHexDigit a = true) (hb : isHexDigit b = true) :
    tokenStep .inq current (92 :: 120 :: a :: b :: s) = .next .inq (current ++ [UInt8.ofNat (hexDigitToInt a * 16 + hexDigitToInt b)]) s := by
  rw [tokenStep, inqStep, if_pos rfl, hexEscape_front ha hb]

theorem inq_escape (current : List UInt8) (hzero : c ≠ 0) (hc : ¬ HexFront (c :: s)) :
    tokenStep .inq current (92 :: c :: (s ++ [0])) = .next .inq (current ++ [unescape c]) (s ++ [0]) := by
  have hnone : hexEscape (c :: (s ++ [0])) = some none := hexEscape_none hc
  rw [tokenStep]
  unfold inqStep
  rw [if_pos rfl, hnone]
  dsimp only
  rw [if_pos hzero]

theorem inq_char (current : List UInt8) (hzero : c ≠ 0) (hc : c ≠ 92 ∧ c ≠ 34) :
    tokenStep .inq current (c :: p) = .next .inq (current ++ [c]) p := by
  rw [tokenStep]
  unfold inqStep
  rw [if_neg hc.1, if_neg hc.2, if_neg hzero]

theorem insq_quote (current : List UInt8) : tokenStep .insq current (92 :: 39 :: p) = .next .insq (current ++ [39]) p := rfl

theorem insq_char (current : List UInt8) (hzero : c ≠ 0) (hc : c ≠ 39) (hback : c = 92 → s.head? ≠ some 39) :
    tokenStep .insq current (c :: (s ++ [0])) = .next .insq (current ++ [c]) (s ++ [0]) := by
  rw [tokenStep]
  unfold insqStep
  by_cases hslash : c = 92
  · rw [if_pos hslash]
    cases s with
    | nil => rfl
    | cons c1 s =>
      dsimp only [cons_append]
      rw [if_neg fun h => hback hslash (congrArg some h)]
  · rw [if_neg hslash, if_neg hc, if_neg hzero]

/-- Behind an opening quote `v` is read, up to the closing quote in front of `rest`. -/
def Reads (q : Quotes) (s v rest : List UInt8) : Prop := ∀ current,
  (Closes rest → tokenLoop q current (s ++ [0]) = .token (current ++ v) (rest ++ [0])) ∧ (¬ Closes rest → tokenLoop q current (s ++ [0]) = .err)

theorem Reads.close (h0 : (0 : UInt8) ∉ rest) (hstep : ∀ current, tokenStep q current (s ++ [0]) = closing current (rest ++ [0])) : Reads q s [] rest := by
  intro current
  rw [append_nil]
  exact ⟨fun hrest => tokenLoop_done ((hstep current).trans (closing_closes hrest)),
    fun hrest => tokenLoop_err ((hstep current).trans (closing_err h0 hrest))⟩

theorem Reads.next {s' : List UInt8} (h : Reads q s' v rest) (hstep : ∀ current, tokenStep q current (s ++ [0]) = .next q (current ++ [c]) (s' ++ [0])) :
    Reads q s (c :: v) rest := by
  intro current
  have hnext := h (current ++ [c])
  rwa [append_assoc, singleton_append, ← tokenLoop_next (hstep current)] at hnext

/-- **A string in double quotes** is read up to the closing quote. -/
theorem inq_spec (h : DoubleQuoted s v rest) (h0 : (0 : UInt8) ∉ s) : Reads .inq s v rest := by
  induction h with
  | close => exact .close (fun h => h0 (mem_cons_of_mem _ h)) fun _ => rfl
  | hex ha hb _ ih => exact (ih fun h => h0 (by simp only [mem_cons, h, or_true])).next fun current => inq_hex current ha hb
  | @escape c s v rest hc _ ih =>
    have hzero : c ≠ 0 := by
      rintro rfl
      exact h0 (by simp only [mem_cons, true_or, or_true])
    exact (ih fun h => h0 (by simp only [mem_cons, h, or_true])).next fun current => inq_escape current hzero hc
  | char hc _ ih => exact (ih fun h => h0 (mem_cons_of_mem _ h)).next fun current => inq_char current (fun h => h0 (h ▸ mem_cons_self)) hc

theorem inq_open : ∀ (n : ℕ) (s current : List UInt8), s.length ≤ n → (0 : UInt8) ∉ s → (∀ v rest, ¬ DoubleQuoted s v rest) →
    tokenLoop .inq current (s ++ [0]) = .err := by
  intro n
  induction n with
  | zero =>
    intro s current hn _ _
    rw [length_eq_zero_iff.1 (Nat.le_zero.1 hn)]
    exact tokenLoop_err rfl
  | succ n ih =>
    intro s current hn h0 hopen
    cases s with
    | nil => exact tokenLoop_err rfl
    | cons c s =>
      rw [length_cons] at hn
      have hs0 : (0 : UInt8) ∉ s := fun h => h0 (mem_cons_of_mem _ h)
      have hzero : c ≠ 0 := fun h => h0 (h ▸ mem_cons_self)
      by_cases hslash : c = 92
      · subst hslash
        cases s with
        | nil =>
          -- the backslash is the last character
          have hstep : tokenLoop .inq current (92 :: [0]) = tokenLoop .inq (current ++ [92]) [0] := tokenLoop_next rfl
          rw [singleton_append, hstep]
          exact tokenLoop_err rfl
        | cons c1 s =>
          rw [length_cons] at hn
          by_cases hfront : HexFront (c1 :: s)
          · obtain ⟨a, b, s', heq, ha, hb⟩ := hfront
            obtain ⟨rfl, rfl⟩ := List.cons.inj heq
            have hlen : s'.length ≤ n := by
              simp only [length_cons] at hn
              omega
            have hstep : tokenLoop .inq current (92 :: 120 :: a :: b :: s' ++ [0]) = _ := tokenLoop_next (inq_hex current ha hb)
            rw [hstep]
            exact ih s' _ hlen (fun h => hs0 (by simp only [mem_cons, h, or_true])) fun v rest h => hopen _ _ (.hex ha hb h)
          · have hstep : tokenLoop .inq current (92 :: c1 :: s ++ [0]) = _ :=
              tokenLoop_next (inq_escape current (fun h => hs0 (h ▸ mem_cons_self)) hfront)
            rw [hstep]
            exact ih s _ (by omega) (fun h => hs0 (mem_cons_of_mem _ h)) fun v rest h => hopen _ _ (.escape hfront h)
      · by_cases hquote : c = 34
        · subst hquote
          exact absurd .close (hopen [] s)
        · have hstep : tokenLoop .inq current (c :: s ++ [0]) = _ := tokenLoop_next (inq_char current hzero ⟨hslash, hquote⟩)
          rw [hstep]
          exact ih s _ (by omega) hs0 fun v rest h => hopen _ _ (.char ⟨hslash, hquote⟩ h)

/-- **A string in single quotes** is read up to the closing quote. -/
theorem insq_spec (h : SingleQuoted s v rest) (h0 : (0 : UInt8) ∉ s) : Reads .insq s v rest := by
  induction h with
  | close => exact .close (fun h => h0 (mem_cons_of_mem _ h)) fun _ => rfl
  | quote _ ih => exact (ih fun h => h0 (by simp only [mem_cons, h, or_true])).next insq_quote
  | char hc hback _ ih =>
    exact (ih fun h => h0 (mem_cons_of_mem _ h)).next fun current => insq_char current (fun h => h0 (h ▸ mem_cons_self)) hc hback

theorem insq_open : ∀ (n : ℕ) (s current : List UInt8), s.length ≤ n → (0 : UInt8) ∉ s → (∀ v rest, ¬ SingleQuoted s v rest) →
    tokenLoop .insq current (s ++ [0]) = .err := by
  intro n
  induction n with
  | zero =>
    intro s current hn _ _
    rw [length_eq_zero_iff.1 (Nat.le_zero.1 hn)]
    exact tokenLoop_err rfl
  | succ n ih =>
    intro s current hn h0 hopen
    cases s with
    | nil => exact tokenLoop_err rfl
    | cons c s =>
      rw [length_cons] at hn
      have hs0 : (0 : UInt8) ∉ s := fun h => h0 (mem_cons_of_mem _ h)
      have hzero : c ≠ 0 := fun h => h0 (h ▸ mem_cons_self)
      by_cases hquote : c = 39
      · subst hquote
        exact absurd .close (hopen [] s)
      by_cases hback : c = 92 → s.head? ≠ some 39
      · have hstep : tokenLoop .insq current (c :: s ++ [0]) = _ := tokenLoop_next (insq_char current hzero hquote hback)
        rw [hstep]
        exact ih s _ (by omega) hs0 fun v rest h => hopen _ _ (.char hquote hback h)
      · rw [Classical.not_imp, not_not] at hback
        obtain ⟨rfl, hhead⟩ := hback
        cases s with
        | nil => cases hhead
        | cons c1 s =>
          cases hhead
          have hstep : tokenLoop .insq current (92 :: 39 :: s ++ [0]) = _ := tokenLoop_next (insq_quote current)
          rw [length_cons] at hn
          rw [hstep]
          exact ih s _ (by omega) (fun h => hs0 (mem_cons_of_mem _ h)) fun v rest h => hopen _ _ (.quote h)

theorem plain_char (current : List UInt8) (hzero : c ≠ 0) (hc : ¬ IsSeparator c ∧ c ≠ 34 ∧ c ≠ 39) :
    tokenStep .plain current (c :: p) = .next .plain (current ++ [c]) p := by
  rw [tokenStep]
  unfold plainStep
  have hsep : ¬ (c = 32 ∨ c = 10 ∨ c = 13 ∨ c = 9) := hc.1
  rw [if_neg hsep, if_neg hzero, if_neg hc.2.1, if_neg hc.2.2]

theorem plain_inq : tokenLoop .plain current (34 :: s ++ [0]) = tokenLoop .inq current (s ++ [0]) := tokenLoop_next rfl

theorem plain_insq : tokenLoop .plain current (39 :: s ++ [0]) = tokenLoop .insq current (s ++ [0]) := tokenLoop_next rfl

/-- **An argument of the grammar** is read. -/
theorem token_spec (h : Token s v rest) (h0 : (0 : UInt8) ∉ s) : ∀ current, tokenLoop .plain current (s ++ [0]) = .token (current ++ v) (rest ++ [0]) := by
  induction h with
  | atEnd =>
    intro current
    rw [append_nil]
    exact tokenLoop_done rfl
  | @separator c rest hc =>
    intro current
    have hstep : tokenStep .plain current (c :: rest ++ [0]) = .done current (rest ++ [0]) := if_pos hc
    rw [append_nil]
    exact tokenLoop_done hstep
  | @inq s v rest h hrest =>
    intro current
    rw [plain_inq]
    exact (inq_spec h (fun hin => h0 (mem_cons_of_mem _ hin)) current).1 hrest
  | @insq s v rest h hrest =>
    intro current
    rw [plain_insq]
    exact (insq_spec h (fun hin => h0 (mem_cons_of_mem _ hin)) current).1 hrest
  | @char c s v rest hc _ ih =>
    intro current
    have hnext := ih (fun h => h0 (mem_cons_of_mem _ h)) (current ++ [c])
    rw [append_assoc, singleton_append] at hnext
    have hstep : tokenLoop .plain current (c :: s ++ [0]) = _ := tokenLoop_next (plain_char current (fun h => h0 (h ▸ mem_cons_self)) hc)
    rw [hstep]
    exact hnext

/-- **Quotes that are wrong** are an error. -/
theorem badToken_spec (h : BadToken s) (h0 : (0 : UInt8) ∉ s) : ∀ current, tokenLoop .plain current (s ++ [0]) = .err := by
  induction h with
  | @inqOpen s h =>
    intro current
    rw [plain_inq]
    exact inq_open _ s current (Nat.le_refl _) (fun hin => h0 (mem_cons_of_mem _ hin)) h
  | @inqFollowed s v rest h hrest =>
    intro current
    rw [plain_inq]
    exact (inq_spec h (fun hin => h0 (mem_cons_of_mem _ hin)) current).2 hrest
  | @insqOpen s h =>
    intro current
    rw [plain_insq]
    exact insq_open _ s current (Nat.le_refl _) (fun hin => h0 (mem_cons_of_mem _ hin)) h
  | @insqFollowed s v rest h hrest =>
    intro current
    rw [plain_insq]
    exact (insq_spec h (fun hin => h0 (mem_cons_of_mem _ hin)) current).2 hrest
  | @char c s hc _ ih =>
    intro current
    have hstep : tokenLoop .plain current (c :: s ++ [0]) = _ := tokenLoop_next (plain_char current (fun h => h0 (h ▸ mem_cons_self)) hc)
    rw [hstep]
    exact ih (fun h => h0 (mem_cons_of_mem _ h)) _

theorem DoubleQuoted.suffix (h : DoubleQuoted s v rest) : rest <:+ s := by
  induction h with
  | close => exact suffix_cons _ _
  | hex _ _ _ ih => exact (((ih.trans (suffix_cons _ _)).trans (suffix_cons _ _)).trans (suffix_cons _ _)).trans (suffix_cons _ _)
  | escape _ _ ih => exact (ih.trans (suffix_cons _ _)).trans (suffix_cons _ _)
  | char _ _ ih => exact ih.trans (suffix_cons _ _)

theorem SingleQuoted.suffix (h : SingleQuoted s v rest) : rest <:+ s := by
  induction h with
  | close => exact suffix_cons _ _
  | quote _ ih => exact (ih.trans (suffix_cons _ _)).trans (suffix_cons _ _)
  | char _ _ _ ih => exact ih.trans (suffix_cons _ _)

theorem Token.suffix (h : Token s v rest) : rest <:+ s := by
  induction h with
  | atEnd => exact suffix_refl _
  | separator _ => exact suffix_cons _ _
  | inq h _ => exact h.suffix.trans (suffix_cons _ _)
  | insq h _ => exact h.suffix.trans (suffix_cons _ _)
  | char _ _ ih => exact ih.trans (suffix_cons _ _)

/-- Something is an argument, or has quotes that are wrong. -/
theorem token_or_bad : ∀ s : List UInt8, (∃ v rest, Token s v rest) ∨ BadToken s := by
  intro s
  induction s with
  | nil => exact Or.inl ⟨[], [], .atEnd⟩
  | cons c s ih =>
    by_cases hsep : IsSeparator c
    · exact Or.inl ⟨[], s, .separator hsep⟩
    by_cases hdouble : c = 34
    · subst hdouble
      by_cases hopen : ∀ v rest, ¬ DoubleQuoted s v rest
      · exact Or.inr (.inqOpen hopen)
      · push Not at hopen
        obtain ⟨v, rest, h⟩ := hopen
        by_cases hrest : Closes rest
        · exact Or.inl ⟨v, rest, .inq h hrest⟩
        · exact Or.inr (.inqFollowed h hrest)
    by_cases hsingle : c = 39
    · subst hsingle
      by_cases hopen : ∀ v rest, ¬ SingleQuoted s v rest
      · exact Or.inr (.insqOpen hopen)
      · push Not at hopen
        obtain ⟨v, rest, h⟩ := hopen
        by_cases hrest : Closes rest
        · exact Or.inl ⟨v, rest, .insq h hrest⟩
        · exact Or.inr (.insqFollowed h hrest)
    obtain ⟨v, rest, h⟩ | h := ih
    · exact Or.inl ⟨_, rest, .char ⟨hsep, hdouble, hsingle⟩ h⟩
    · exact Or.inr (.char ⟨hsep, hdouble, hsingle⟩ h)

variable {vector vs : List (List UInt8)} {b : List UInt8}

theorem splitLoop_end (h : skipBlanks p = some (0 :: s)) : splitLoop vector p = .args vector := by
  rw [splitLoop.eq_def, h]
  rfl

theorem splitLoop_token (h : skipBlanks p = some (c :: s)) (hzero : c ≠ 0) (htoken : tokenLoop .plain [] (c :: s) = .token current p') :
    splitLoop vector p = splitLoop (vector ++ [current]) p' := by
  rw [splitLoop.eq_def, h]
  dsimp only
  rw [dif_neg hzero, htoken]

theorem splitLoop_err (h : skipBlanks p = some (c :: s)) (hzero : c ≠ 0) (htoken : tokenLoop .plain [] (c :: s) = .err) : splitLoop vector p = .null := by
  rw [splitLoop.eq_def, h]
  dsimp only
  rw [dif_neg hzero, htoken]

theorem skipBlanks_spec (hb : ∀ c ∈ b, isspace c = true) (hc : c = 0 ∨ isspace c = false) : skipBlanks (b ++ c :: s) = some (c :: s) := by
  induction b with
  | nil =>
    rw [nil_append, skipBlanks, if_neg]
    rintro ⟨hzero, hspace⟩
    obtain rfl | hc := hc
    · exact hzero rfl
    · rw [hc] at hspace
      cases hspace
  | cons a b ih =>
    obtain ⟨ha, hb⟩ := forall_mem_cons.1 hb
    have hzero : a ≠ 0 := by
      rintro rfl
      exact absurd ha (by decide)
    rw [cons_append, skipBlanks, if_pos ⟨hzero, ha⟩, ih hb]

theorem skipBlanks_text (hb : ∀ c ∈ b, isspace c = true) (hc : isspace c = false) : skipBlanks (b ++ c :: s ++ [0]) = some (c :: (s ++ [0])) := by
  rw [append_assoc]
  exact skipBlanks_spec hb (Or.inr hc)

theorem Token.suffix_tail (h : Token (c :: s) v rest) : rest <:+ s := by
  cases h with
  | separator _ => exact suffix_refl _
  | inq h _ => exact h.suffix
  | insq h _ => exact h.suffix
  | char _ h => exact h.suffix

theorem splitLoop_line (h : Line s vs) (h0 : (0 : UInt8) ∉ s) : ∀ vector, splitLoop vector (s ++ [0]) = .args (vector ++ vs) := by
  induction h with
  | blanks hb =>
    intro vector
    rw [append_nil]
    exact splitLoop_end (skipBlanks_spec hb (Or.inl rfl))
  | @token b s v rest c vs hb hc htoken _ ih =>
    intro vector
    have hzero : c ≠ 0 := fun h => h0 (mem_append_right _ (h ▸ mem_cons_self))
    have hread := token_spec htoken (fun h => h0 (mem_append_right _ h)) []
    rw [splitLoop_token (skipBlanks_text hb hc) hzero hread, ih fun h => h0 (mem_append_right _ (mem_cons_of_mem _ (htoken.suffix_tail.subset h)))]
    rw [append_assoc]
    rfl

/-- **A line with quotes that are wrong** is not split. -/
theorem splitLoop_bad (h : BadLine s) (h0 : (0 : UInt8) ∉ s) : ∀ vector, splitLoop vector (s ++ [0]) = .null := by
  induction h with
  | @here b s c hb hc h =>
    intro vector
    have hzero : c ≠ 0 := fun h => h0 (mem_append_right _ (h ▸ mem_cons_self))
    have hread := badToken_spec h (fun h => h0 (mem_append_right _ h)) []
    exact splitLoop_err (skipBlanks_text hb hc) hzero hread
  | @later b s v rest c hb hc htoken _ ih =>
    intro vector
    have hzero : c ≠ 0 := fun h => h0 (mem_append_right _ (h ▸ mem_cons_self))
    have hread := token_spec htoken (fun h => h0 (mem_append_right _ h)) []
    rw [splitLoop_token (skipBlanks_text hb hc) hzero hread]
    exact ih (fun h => h0 (mem_append_right _ (mem_cons_of_mem _ (htoken.suffix_tail.subset h)))) _

/-- Every text is a line of the grammar, or has quotes that are wrong. -/
theorem line_or_bad : ∀ (n : ℕ) (s : List UInt8), s.length ≤ n → (∃ vs, Line s vs) ∨ BadLine s := by
  intro n
  induction n with
  | zero =>
    intro s hn
    rw [length_eq_zero_iff.1 (Nat.le_zero.1 hn)]
    exact Or.inl ⟨[], .blanks fun c hc => absurd hc not_mem_nil⟩
  | succ n ih =>
    intro s hn
    have hblanks : ∀ c ∈ s.takeWhile isspace, isspace c = true := fun c hc => mem_takeWhile_imp hc
    have hsplit := takeWhile_append_dropWhile (p := isspace) (l := s)
    cases hdrop : s.dropWhile isspace with
    | nil =>
      rw [hdrop, append_nil] at hsplit
      exact Or.inl ⟨[], .blanks (hsplit ▸ hblanks)⟩
    | cons c rest =>
      have hc : isspace c = false := by
        have hne : s.dropWhile isspace ≠ [] := by
          rw [hdrop]
          exact cons_ne_nil _ _
        have hnot := head_dropWhile_not isspace hne
        simp only [hdrop, head_cons] at hnot
        exact hnot
      rw [hdrop] at hsplit
      have hlen := congrArg List.length hsplit
      rw [length_append, length_cons] at hlen
      rw [← hsplit]
      obtain ⟨v, more, htoken⟩ | hbad := token_or_bad (c :: rest)
      · have hshort := htoken.suffix_tail.length_le
        obtain ⟨vs, hline⟩ | hbad := ih more (by omega)
        · exact Or.inl ⟨_, .token hblanks hc htoken hline⟩
        · exact Or.inr (.later hblanks hc htoken hbad)
      · exact Or.inr (.here hblanks hc hbad)

/-- **Exactly the lines of the grammar are split**, into their arguments; for the others there is no result, and nothing is read behind the NUL. -/
theorem sdssplitargs_iff (line : Text) :
    (∀ vs, sdssplitargs line = .args vs ↔ Line line.1 vs) ∧ (sdssplitargs line = .null ↔ BadLine line.1) ∧ sdssplitargs line ≠ .beyond := by
  have hline : ∀ vs, Line line.1 vs → sdssplitargs line = .args vs := fun vs h => splitLoop_line h line.2 []
  have hbad : BadLine line.1 → sdssplitargs line = .null := fun h => splitLoop_bad h line.2 []
  obtain ⟨ts, h⟩ | h := line_or_bad _ line.1 (Nat.le_refl _)
  · have hargs := hline ts h
    refine ⟨fun vs => ⟨fun heq => ?_, hline vs⟩, ⟨fun heq => ?_, hbad⟩, ?_⟩
    · rw [hargs] at heq
      cases heq
      exact h
    · rw [hargs] at heq
      cases heq
    · rw [hargs]
      exact fun heq => Split.noConfusion heq
  · have hnull := hbad h
    refine ⟨fun vs => ⟨fun heq => ?_, hline vs⟩, ⟨fun _ => h, hbad⟩, ?_⟩
    · rw [hnull] at heq
      cases heq
    · rw [hnull]
      exact fun heq => Split.noConfusion heq

@[grind =] def joinSpaces : List (List UInt8) → List UInt8
  | [] => []
  | [s] => s
  | s :: t :: l => s ++ 32 :: joinSpaces (t :: l)

theorem hexDigit_spec : ∀ n < 16, isHexDigit (hexDigit n) = true ∧ hexDigitToInt (hexDigit n) = n ∧ hexDigit n ≠ 0 := by decide

theorem hexDigit_byte (c : UInt8) : UInt8.ofNat (hexDigitToInt (hexDigit (c.toNat / 16)) * 16 + hexDigitToInt (hexDigit (c.toNat % 16))) = c := by
  have hlt := c.toNat_lt
  rw [(hexDigit_spec (c.toNat / 16) (by omega)).2.1, (hexDigit_spec (c.toNat % 16) (by omega)).2.1, Nat.div_add_mod']
  exact UInt8.ofNat_toNat

theorem not_hexFront (hc : c ≠ 120) : ¬ HexFront (c :: s) := by
  rintro ⟨a, b, s', heq, -⟩
  exact hc (List.cons.inj heq).1

/-- **A character in quotes** is read as itself. -/
theorem reprByte_quoted (c : UInt8) (h : DoubleQuoted s v rest) : DoubleQuoted (reprByte c ++ s) (c :: v) rest := by
  unfold reprByte
  by_cases hself : c = 92 ∨ c = 34
  · rw [if_pos hself]
    have hvalue : unescape c = c ∧ c ≠ 120 := by rcases hself with rfl | rfl <;> decide
    have hquoted : DoubleQuoted (92 :: c :: s) (unescape c :: v) rest := .escape (not_hexFront hvalue.2) h
    rwa [hvalue.1] at hquoted
  rw [if_neg hself]
  by_cases hn : c = 10
  · subst hn
    exact .escape (not_hexFront (by decide)) h
  rw [if_neg hn]
  by_cases hr : c = 13
  · subst hr
    exact .escape (not_hexFront (by decide)) h
  rw [if_neg hr]
  by_cases ht : c = 9
  · subst ht
    exact .escape (not_hexFront (by decide)) h
  rw [if_neg ht]
  by_cases ha : c = 7
  · subst ha
    exact .escape (not_hexFront (by decide)) h
  rw [if_neg ha]
  by_cases hb : c = 8
  · subst hb
    exact .escape (not_hexFront (by decide)) h
  rw [if_neg hb]
  by_cases hprint : isprint c = true
  · rw [if_pos hprint]
    exact .char (not_or.1 hself) h
  · rw [if_neg hprint]
    have hlt := c.toNat_lt
    have hquoted : DoubleQuoted (92 :: 120 :: hexDigit (c.toNat / 16) :: hexDigit (c.toNat % 16) :: s) (_ :: v) rest :=
      .hex (hexDigit_spec _ (by omega)).1 (hexDigit_spec _ (by omega)).1 h
    rwa [hexDigit_byte] at hquoted

theorem repr_quoted (t rest : List UInt8) : DoubleQuoted (t.flatMap reprByte ++ 34 :: rest) t rest := by
  induction t with
  | nil => exact .close
  | cons c t ih =>
    rw [flatMap_cons, append_assoc]
    exact reprByte_quoted c ih

theorem reprByte_noNul (c : UInt8) : (0 : UInt8) ∉ reprByte c := by
  unfold reprByte
  have hlt := c.toNat_lt
  have hhigh := (hexDigit_spec (c.toNat / 16) (by omega)).2.2
  have hlow := (hexDigit_spec (c.toNat % 16) (by omega)).2.2
  split
  · rename_i hself
    rcases hself with rfl | rfl <;> decide
  repeat' split
  all_goals first
    | decide
    | skip
  · rename_i hprint
    rw [mem_singleton]
    rintro rfl
    exact absurd hprint (by decide)
  · simp only [mem_cons, not_mem_nil, or_false, not_or]
    exact ⟨by decide, by decide, hhigh.symm, hlow.symm⟩

theorem repr_noNul (t : List UInt8) : (0 : UInt8) ∉ sdscatrepr [] t := by
  rw [sdscatrepr, nil_append, mem_append, mem_cons, mem_flatMap, mem_singleton]
  rintro ((h | ⟨c, -, h⟩) | h)
  · exact absurd h (by decide)
  · exact reprByte_noNul c h
  · exact absurd h (by decide)

theorem join_noNul (ts : List (List UInt8)) : (0 : UInt8) ∉ joinSpaces (ts.map (sdscatrepr [])) := by
  induction ts with
  | nil => exact not_mem_nil
  | cons t ts ih =>
    cases ts with
    | nil => exact repr_noNul t
    | cons t' ts =>
      rw [map_cons, map_cons, joinSpaces, mem_append, mem_cons]
      rintro (h | h | h)
      · exact repr_noNul t h
      · exact absurd h (by decide)
      · exact ih h

theorem Line.blank (h : Line s vs) : Line (32 :: s) vs := by
  cases h with
  | blanks hb => exact .blanks (forall_mem_cons.2 ⟨by decide, hb⟩)
  | @token b s v rest c vs hb hc htoken h => exact .token (b := 32 :: b) (forall_mem_cons.2 ⟨by decide, hb⟩) hc htoken h

/-- **Strings in quotes** make up a line of the grammar. -/
theorem join_line (ts : List (List UInt8)) : Line (joinSpaces (ts.map (sdscatrepr []))) ts := by
  induction ts with
  | nil => exact .blanks fun c hc => absurd hc not_mem_nil
  | cons t ts ih =>
    cases ts with
    | nil =>
      have htoken : Token (34 :: (t.flatMap reprByte ++ [34])) t [] := .inq (repr_quoted t []) fun c hc => by cases hc
      exact .token (b := []) (fun c hc => absurd hc not_mem_nil) (by decide) htoken ih
    | cons t' ts =>
      have htoken : Token (34 :: (t.flatMap reprByte ++ 34 :: 32 :: joinSpaces ((t' :: ts).map (sdscatrepr [])))) t _ :=
        .inq (repr_quoted t _) fun c hc => by cases hc; decide
      have hline : Line ([] ++ 34 :: (t.flatMap reprByte ++ 34 :: 32 :: joinSpaces ((t' :: ts).map (sdscatrepr [])))) (t :: t' :: ts) :=
        .token (fun c hc => absurd hc not_mem_nil) (by decide) htoken ih.blank
      have heq : joinSpaces ((t :: t' :: ts).map (sdscatrepr [])) = [] ++ 34 :: (t.flatMap reprByte ++ 34 :: 32 :: joinSpaces ((t' :: ts).map (sdscatrepr []))) := by
        rw [map_cons, map_cons, joinSpaces, sdscatrepr]
        simp only [nil_append, cons_append, append_assoc]
      rw [heq]
      exact hline

/-- **Strings in quotes, with single spaces between them, are split into themselves; and exactly the lines of the grammar are split.** -/
theorem splitargs : (∀ ts : List (List UInt8), sdssplitargs ⟨joinSpaces (ts.map (sdscatrepr [])), join_noNul ts⟩ = .args ts) ∧
      ∀ line : Text, (∀ vs, sdssplitargs line = .args vs ↔ Line line.1 vs) ∧ (sdssplitargs line = .null ↔ BadLine line.1) ∧ sdssplitargs line ≠ .beyond :=
  ⟨fun ts => splitLoop_line (join_line ts) (join_noNul ts) [], sdssplitargs_iff⟩

end KVStores.Redis.SplitArgs
