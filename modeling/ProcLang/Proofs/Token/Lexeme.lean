import Mathlib.Data.List.TakeWhile
import ProcLang.Proofs.PrefixTree.Lookup
import ProcLang.Token.Stream

/-!
# ProcLang.Proofs.Token.Lexeme

**Maximal munch at the beginning of a text.** The shapes of tokens are predicates on their
characters: `IsWord`, `IsNumber`, `IsOperator`. `IsLexeme` says which token a text begins with: the
longest word, or else the longest number, or else a line break, or else the longest entry of the
table of operators, or else one illegal character. `lexeme_isLexeme` shows that `lexeme` reads
exactly this token wherever neither a blank nor a comment stands.
-/

namespace ProcLang

namespace Token

/-! ### Shapes -/

/-- The shape `[A-Za-z_][A-Za-z0-9_]*` of identifiers and reserved words. -/
def IsWord (w : List Char) : Prop :=
  ∃ c rest, w = c :: rest ∧ isNameStart c = true ∧ ∀ d ∈ rest, isNameChar d = true

/-- A nonempty row of digits, `[0-9]+`. -/
def IsDigits (w : List Char) : Prop := w ≠ [] ∧ ∀ d ∈ w, isDigit d = true

/-- The shape `[0-9]+(\.[0-9]+)?` or `\.[0-9]+` of numbers. -/
def IsNumber (w : List Char) : Prop :=
  IsDigits w ∨ ∃ whole fraction, (∀ d ∈ whole, isDigit d = true) ∧ IsDigits fraction ∧
    w = whole ++ '.' :: fraction

/-- The key of an entry of the table of operators. -/
def IsOperator (w : List Char) : Prop := ∃ kind, (String.ofList w, kind) ∈ operatorEntries

/-- The longest text of a shape that a text begins with. -/
structure IsLongest (shape : List Char → Prop) (cs w : List Char) : Prop where
  fits : shape w
  begins : w <+: cs
  longest : ∀ other, shape other → other <+: cs → other.length ≤ w.length

/-- No text of a shape stands at the beginning of a text. -/
def BeginsWithNo (shape : List Char → Prop) (cs : List Char) : Prop :=
  ∀ w, shape w → ¬ w <+: cs

/-- The kind of a word: that of its entry in the table of reserved words, and an identifier without
an entry. -/
inductive IsWordKind (w : List Char) : TokenKind → Prop
  | reserved {kind : TokenKind} (entry : (String.ofList w, kind) ∈ keywordEntries) :
      IsWordKind w kind
  | identifier (absent : ∀ kind, (String.ofList w, kind) ∉ keywordEntries) :
      IsWordKind w .identifier

/-- The kind and the characters of the token that a text begins with. -/
inductive IsLexeme (cs : List Char) : TokenKind → List Char → Prop
  /-- The longest word. -/
  | word {kind : TokenKind} {w : List Char} (munch : IsLongest IsWord cs w)
      (table : IsWordKind w kind) : IsLexeme cs kind w
  /-- The longest number, which is real if it has a point. -/
  | number {w : List Char} (noWord : BeginsWithNo IsWord cs) (munch : IsLongest IsNumber cs w) :
      IsLexeme cs (if '.' ∈ w then .realLiteral else .integerLiteral) w
  /-- A line break. -/
  | newline {rest : List Char} (text : cs = '\n' :: rest) : IsLexeme cs .newline ['\n']
  /-- The longest operator, which is never the mark of a comment. -/
  | operator {kind : TokenKind} {w : List Char} (noWord : BeginsWithNo IsWord cs)
      (noNumber : BeginsWithNo IsNumber cs) (munch : IsLongest IsOperator cs w)
      (table : (String.ofList w, kind) ∈ operatorEntries) (noComment : kind ≠ .comment) :
      IsLexeme cs kind w
  /-- A character that begins no token. -/
  | illegal {c : Char} {rest : List Char} (text : cs = c :: rest) (noWord : BeginsWithNo IsWord cs)
      (noNumber : BeginsWithNo IsNumber cs) (noBreak : c ≠ '\n')
      (noOperator : BeginsWithNo IsOperator cs) : IsLexeme cs .illegal [c]

/-! ### Runs of characters of one class -/

/-- The run of a class is the longest beginning in it. -/
theorem length_le_takeWhile {p : Char → Bool} {w cs : List Char} (hbegins : w <+: cs)
    (hclass : ∀ c ∈ w, p c = true) : w.length ≤ (cs.takeWhile p).length := by
  obtain ⟨rest, rfl⟩ := hbegins
  rw [List.takeWhile_append_of_pos hclass, List.length_append]
  omega

/-- What is taken and what is dropped make up the text. -/
theorem take_takeWhile_length (p : Char → Bool) (cs : List Char) :
    cs.take (cs.takeWhile p).length = cs.takeWhile p := by
  have h := congrArg (List.take (cs.takeWhile p).length) (cs.takeWhile_append_dropWhile (p := p))
  rw [List.take_left] at h
  exact h.symm

theorem drop_takeWhile_length (p : Char → Bool) (cs : List Char) :
    cs.drop (cs.takeWhile p).length = cs.dropWhile p := by
  have h := congrArg (List.drop (cs.takeWhile p).length) (cs.takeWhile_append_dropWhile (p := p))
  rw [List.drop_left] at h
  exact h.symm

/-! ### Words -/

/-- Without a letter at its beginning, a text begins with no word. -/
theorem beginsWithNo_word {c : Char} {rest : List Char} (h : isNameStart c = false) :
    BeginsWithNo IsWord (c :: rest) := by
  rintro w ⟨d, more, rfl, hd, -⟩ hbegins
  rw [(List.cons_prefix_cons.1 hbegins).1, h] at hd
  exact absurd hd (by simp)

/-- A letter and the name characters behind it are the longest word. -/
theorem isLongest_word {c : Char} {rest : List Char} (h : isNameStart c = true) :
    IsLongest IsWord (c :: rest) (c :: rest.takeWhile isNameChar) where
  fits := ⟨c, _, rfl, h, fun _ hd => List.mem_takeWhile_imp hd⟩
  begins := List.cons_prefix_cons.2 ⟨rfl, List.takeWhile_prefix _⟩
  longest := by
    rintro other ⟨d, more, rfl, -, hmore⟩ hbegins
    have hrest := (List.cons_prefix_cons.1 hbegins).2
    simpa using length_le_takeWhile hrest hmore

theorem keywordEntries_distinct : (keywordEntries.map (·.1)).Nodup := by decide

/-- The kind of a word is read off the table of reserved words. -/
theorem isWordKind_wordKind (w : List Char) : IsWordKind w (wordKind w) := by
  rw [wordKind, keywords]
  cases h : (PrefixTree.ofList keywordEntries).findChars w with
  | some kind =>
      exact .reserved ((PrefixTree.findChars_ofList_eq_some_iff keywordEntries_distinct w kind).1 h)
  | none =>
      refine .identifier fun kind hmem => ?_
      rw [← PrefixTree.findChars_ofList_eq_some_iff keywordEntries_distinct, h] at hmem
      exact absurd hmem (by simp)

/-! ### Numbers -/

/-- A fraction is a point and the digits behind it. -/
theorem fractionLength_cons (rest : List Char) :
    fractionLength ('.' :: rest) =
      if rest.takeWhile isDigit = [] then 0 else (rest.takeWhile isDigit).length + 1 := by
  rw [fractionLength]
  cases rest.takeWhile isDigit with
  | nil => rfl
  | cons d more => rfl

/-- Without a point and a digit behind it there is no fraction. -/
theorem fractionLength_eq_zero {cs : List Char} (h : ∀ fraction, IsDigits fraction →
    ¬ '.' :: fraction <+: cs) : fractionLength cs = 0 := by
  rw [fractionLength.eq_def]
  split
  · rename_i rest
    have hnil : rest.takeWhile isDigit = [] := by
      by_contra hne
      exact h _ ⟨hne, fun d hd => List.mem_takeWhile_imp hd⟩
        (List.cons_prefix_cons.2 ⟨rfl, List.takeWhile_prefix _⟩)
    rw [hnil]
    rfl
  · rfl

theorem isDigit_point : isDigit '.' = false := by decide

/-- A number at the beginning of a text ends within its digits, or behind the digits that follow
the point behind them. -/
theorem isNumber_cases {w cs : List Char} (hnumber : IsNumber w) (hbegins : w <+: cs) :
    (IsDigits w ∧ w <+: cs.takeWhile isDigit) ∨
      ∃ fraction, IsDigits fraction ∧ w = cs.takeWhile isDigit ++ '.' :: fraction ∧
        '.' :: fraction <+: cs.dropWhile isDigit := by
  rcases hnumber with hdigits | ⟨whole, fraction, hwhole, hfraction, rfl⟩
  · refine Or.inl ⟨hdigits, ?_⟩
    obtain ⟨rest, rfl⟩ := hbegins
    rw [List.takeWhile_append_of_pos hdigits.2]
    exact List.prefix_append _ _
  · obtain ⟨rest, rfl⟩ := hbegins
    refine Or.inr ⟨fraction, hfraction, ?_, ?_⟩
    · rw [List.append_assoc, List.takeWhile_append_of_pos hwhole]
      simp [isDigit_point]
    · rw [List.append_assoc, List.dropWhile_append_of_pos hwhole]
      simp [isDigit_point]

/-- What `number?` finds is the longest number, and it finds one if there is any. -/
theorem number?_cases (cs : List Char) :
    (∃ w, IsLongest IsNumber cs w ∧
        number? cs = some (if '.' ∈ w then .realLiteral else .integerLiteral, w.length)) ∨
      (BeginsWithNo IsNumber cs ∧ number? cs = none) := by
  have hwhole : ∀ d ∈ cs.takeWhile isDigit, isDigit d = true := fun d hd =>
    List.mem_takeWhile_imp hd
  have hpoint : '.' ∉ cs.takeWhile isDigit := fun hmem =>
    absurd (hwhole _ hmem) (by simp [isDigit_point])
  rw [number?]
  simp only [drop_takeWhile_length]
  by_cases hfraction : ∃ rest, cs.dropWhile isDigit = '.' :: rest ∧ rest.takeWhile isDigit ≠ []
  · obtain ⟨rest, hrest, hne⟩ := hfraction
    rw [hrest, fractionLength_cons, if_neg hne]
    refine Or.inl ⟨cs.takeWhile isDigit ++ '.' :: rest.takeWhile isDigit, ⟨?_, ?_, ?_⟩, ?_⟩
    · exact Or.inr ⟨_, _, hwhole, ⟨hne, fun d hd => List.mem_takeWhile_imp hd⟩, rfl⟩
    · conv_rhs => rw [← cs.takeWhile_append_dropWhile (p := isDigit), hrest]
      exact (List.prefix_append_right_inj _).2
        (List.cons_prefix_cons.2 ⟨rfl, List.takeWhile_prefix _⟩)
    · intro other hother hbegins
      rcases isNumber_cases hother hbegins with ⟨-, hpre⟩ | ⟨fraction, hdigits, rfl, hpre⟩
      · have := hpre.length_le
        rw [List.length_append]
        omega
      · rw [hrest] at hpre
        have := length_le_takeWhile (List.cons_prefix_cons.1 hpre).2 hdigits.2
        simpa using this
    · simp
  · have hzero : fractionLength (cs.dropWhile isDigit) = 0 := by
      refine fractionLength_eq_zero fun fraction hdigits hpre => hfraction ?_
      obtain ⟨tail, htail⟩ := hpre
      refine ⟨fraction ++ tail, by rw [← htail]; rfl, ?_⟩
      rw [List.takeWhile_append_of_pos hdigits.2]
      simp [hdigits.1]
    -- without a fraction every number consists of digits only
    have hdigitsOnly : ∀ w, IsNumber w → w <+: cs →
        IsDigits w ∧ w.length ≤ (cs.takeWhile isDigit).length := by
      intro w hw hbegins
      rcases isNumber_cases hw hbegins with ⟨hdigits, hpre⟩ | ⟨fraction, hdigits, -, tail, htail⟩
      · exact ⟨hdigits, hpre.length_le⟩
      · refine absurd ⟨fraction ++ tail, by rw [← htail]; rfl, ?_⟩ hfraction
        rw [List.takeWhile_append_of_pos hdigits.2]
        simp [hdigits.1]
    rw [hzero]
    cases hrun : cs.takeWhile isDigit with
    | nil =>
        refine Or.inr ⟨fun w hw hbegins => ?_, rfl⟩
        obtain ⟨hdigits, hle⟩ := hdigitsOnly w hw hbegins
        rw [hrun] at hle
        exact hdigits.1 (List.length_eq_zero_iff.1 (Nat.le_zero.1 hle))
    | cons d more =>
        rw [hrun] at hwhole hpoint hdigitsOnly
        refine Or.inl ⟨d :: more, ⟨Or.inl ⟨by simp, hwhole⟩, ?_, fun w hw hbegins =>
          (hdigitsOnly w hw hbegins).2⟩, by rw [if_neg hpoint]; rfl⟩
        rw [← hrun]
        exact List.takeWhile_prefix _

/-! ### Operators -/

theorem operatorEntries_distinct : (operatorEntries.map (·.1)).Nodup := by decide

/-- Every operator is written with at least one character. -/
theorem isOperator_ne_nil {w : List Char} (h : IsOperator w) : w ≠ [] := by
  rintro rfl
  obtain ⟨kind, hmem⟩ := h
  have hnone : ∀ entry ∈ operatorEntries, entry.1 ≠ "" := by decide
  exact hnone _ hmem rfl

/-- The keys of the tree of operators are the operators. -/
theorem isKeyAt_operators_iff (cs w : List Char) (kind : TokenKind) :
    operators.IsKeyAt cs w kind ↔ w <+: cs ∧ (String.ofList w, kind) ∈ operatorEntries := by
  rw [PrefixTree.IsKeyAt, operators, PrefixTree.findChars_ofList_eq_some_iff
    operatorEntries_distinct]
  exact ⟨fun h => h.2, fun h => ⟨isOperator_ne_nil ⟨kind, h.2⟩, h⟩⟩

/-- The longest key of the tree of operators is the longest operator, with its kind. -/
theorem longestKey_operators_cases (cs : List Char) :
    (∃ w kind, IsLongest IsOperator cs w ∧ (String.ofList w, kind) ∈ operatorEntries ∧
        operators.longestKey cs = some (kind, w.length)) ∨
      (BeginsWithNo IsOperator cs ∧ operators.longestKey cs = none) := by
  rcases operators.longestKey_cases cs with ⟨w, kind, hkey, hlongest, hresult⟩ | ⟨hnone, hresult⟩
  · obtain ⟨hbegins, hentry⟩ := (isKeyAt_operators_iff cs w kind).1 hkey
    refine Or.inl ⟨w, kind, ⟨⟨kind, hentry⟩, hbegins, ?_⟩, hentry, hresult⟩
    rintro other ⟨k, hk⟩ hother
    exact hlongest other k ((isKeyAt_operators_iff cs other k).2 ⟨hother, hk⟩)
  · refine Or.inr ⟨?_, hresult⟩
    rintro w ⟨kind, hentry⟩ hbegins
    exact hnone w kind ((isKeyAt_operators_iff cs w kind).2 ⟨hbegins, hentry⟩)

/-- The mark of a comment is the only operator of its kind. -/
theorem comment_entry {w : List Char} (h : (String.ofList w, TokenKind.comment) ∈ operatorEntries) :
    w = ['/', '/'] := by
  have hmark : ∀ entry ∈ operatorEntries, entry.2 = .comment → entry.1.toList = ['/', '/'] := by
    decide
  simpa using hmark _ h rfl

/-! ### The token at the beginning of a text -/

/-- **`lexeme` is maximal munch.** Where a text begins with no comment, `lexeme` gives the kind and
the length of the token it begins with. -/
theorem lexeme_isLexeme {c : Char} {rest : List Char} (noComment : ¬ ['/', '/'] <+: c :: rest) :
    ∃ w, IsLexeme (c :: rest) (lexeme c rest).1 w ∧ (lexeme c rest).2 = w.length ∧
      w <+: c :: rest ∧ w ≠ [] := by
  rw [lexeme]
  by_cases hname : isNameStart c = true
  · rw [if_pos hname]
    exact ⟨c :: rest.takeWhile isNameChar, .word (isLongest_word hname) (isWordKind_wordKind _), rfl,
      (isLongest_word hname).begins, by simp⟩
  · rw [if_neg hname]
    have noWord : BeginsWithNo IsWord (c :: rest) := beginsWithNo_word (by simpa using hname)
    rcases number?_cases (c :: rest) with ⟨w, hmunch, hresult⟩ | ⟨noNumber, hresult⟩
    · rw [hresult]
      refine ⟨w, .number noWord hmunch, rfl, hmunch.begins, ?_⟩
      rcases hmunch.fits with hdigits | ⟨whole, fraction, -, -, rfl⟩
      · exact hdigits.1
      · simp
    · rw [hresult]
      by_cases hbreak : c = '\n'
      · subst hbreak
        exact ⟨['\n'], .newline rfl, rfl, by simp, by simp⟩
      · simp only [if_neg hbreak]
        rcases longestKey_operators_cases (c :: rest) with
          ⟨w, kind, hmunch, hentry, hkey⟩ | ⟨noOperator, hkey⟩
        · rw [hkey]
          refine ⟨w, .operator noWord noNumber hmunch hentry ?_, rfl, hmunch.begins,
            isOperator_ne_nil hmunch.fits⟩
          rintro rfl
          exact noComment (comment_entry hentry ▸ hmunch.begins)
        · rw [hkey]
          exact ⟨[c], .illegal rfl noWord noNumber hbreak noOperator, rfl, by simp, by simp⟩

end Token

end ProcLang
