import ProcLang.Proofs.Token.Lexeme

/-!
# ProcLang.Proofs.Token.Coverage

**The tokens of a source text cover it.** `IsGap` says what may stand between two tokens and
`positionAfter` counts the place behind a text, without any state. `tokenize_covers` states that
a source text is gap, token, gap, token, and so on to its end: every token is the one that maximal
munch finds where it starts, and carries the place at which it starts.

The induction runs over the rounds of `streamFrom`. Its invariant is that the place handed on is
`positionAfter` what has been read (`readToken_cases` is one round).
-/

namespace ProcLang

namespace Token

/-! ### Gaps and places -/

/-- A gap in front of the text `following`: blanks, and comments. A comment reaches to the end of
its line, so only a line break or the end of the text can stand behind it. -/
inductive IsGap (following : List Char) : List Char → Prop
  | nil : IsGap following []
  | blank {c : Char} {gap : List Char} (separates : c = ' ' ∨ c = '\t' ∨ c = '\r')
      (rest : IsGap following gap) : IsGap following (c :: gap)
  | comment {body : List Char} (oneLine : '\n' ∉ body)
      (whole : following = [] ∨ following.head? = some '\n') :
      IsGap following ('/' :: '/' :: body)

/-- The text goes on with neither a blank nor a comment. -/
def StartsToken (cs : List Char) : Prop :=
  (∀ c, cs.head? = some c → c ≠ ' ' ∧ c ≠ '\t' ∧ c ≠ '\r') ∧ ¬ ['/', '/'] <+: cs

/-- The place behind a text: one line more than it has line breaks, and one column more than it has
characters behind the last of them. -/
def positionAfter (before : List Char) : Position :=
  ⟨1 + before.count '\n', 1 + (before.reverse.takeWhile (· ≠ '\n')).length⟩

/-- A token with the gap in front of it. -/
structure Piece where
  gap : List Char
  token : Token

/-- The text of a piece. -/
def Piece.chars (piece : Piece) : List Char := piece.gap ++ piece.token.text.toList

/-- A token between the text in front of its gap and the text behind it: the gap separates and
nothing else does, the token is the one that maximal munch finds, and it knows its place. -/
structure Piece.Fits (piece : Piece) (before after : List Char) : Prop where
  separated : IsGap (piece.token.text.toList ++ after) piece.gap
  starts : StartsToken (piece.token.text.toList ++ after)
  lexeme : IsLexeme (piece.token.text.toList ++ after) piece.token.kind piece.token.text.toList
  notEnding : piece.token.kind ≠ .endOfFile
  placed : piece.token.start = positionAfter (before ++ piece.gap)

/-- The text goes on line by line: characters other than a line break move to the right. -/
theorem positionAfter_append {before w : List Char} (h : '\n' ∉ w) :
    positionAfter (before ++ w) = (positionAfter before).right w.length := by
  have hcount : w.count '\n' = 0 := List.count_eq_zero.2 h
  have hrun : ∀ c ∈ w.reverse, (decide (c ≠ '\n')) = true := by
    intro c hc
    have : c ≠ '\n' := fun heq => h (heq ▸ List.mem_reverse.1 hc)
    simpa using this
  simp only [positionAfter, Position.right, List.count_append, hcount, List.reverse_append,
    List.takeWhile_append_of_pos hrun, List.length_append, List.length_reverse]
  congr 1
  omega

/-- A line break leads to the beginning of the line below. -/
theorem positionAfter_newline (before : List Char) :
    positionAfter (before ++ ['\n']) = (positionAfter before).below := by
  simp [positionAfter, Position.below, List.count_append, Nat.add_assoc]

/-- A longer text ends at another place. -/
theorem positionAfter_append_ne (before : List Char) {w : List Char} (h : w ≠ []) :
    positionAfter (before ++ w) ≠ positionAfter before := by
  intro heq
  by_cases hline : '\n' ∈ w
  · have hcount := congrArg Position.line heq
    have hpos := List.count_pos_iff.2 hline
    simp only [positionAfter, List.count_append] at hcount
    omega
  · rw [positionAfter_append hline] at heq
    have hcolumn := congrArg Position.column heq
    have hpos := List.length_pos_iff.2 h
    simp only [Position.right] at hcolumn
    omega

/-! ### The gap in front of a token -/

theorem isGapChar_iff (c : Char) : isGapChar c = true ↔ c = ' ' ∨ c = '\t' ∨ c = '\r' := by
  simp [isGapChar, or_assoc]

/-- Blanks in front of a gap make a longer gap. -/
theorem isGap_append {following blanks gap : List Char} (h : ∀ c ∈ blanks, isGapChar c = true)
    (hgap : IsGap following gap) : IsGap following (blanks ++ gap) := by
  induction blanks with
  | nil => exact hgap
  | cons c rest ih =>
      have hc := (isGapChar_iff c).1 (h c (by simp))
      exact .blank hc (ih fun d hd => h d (List.mem_cons_of_mem _ hd))

/-- The blanks and the comment that a text begins with. -/
def gapOf (cs : List Char) : List Char :=
  cs.takeWhile isGapChar ++
    (cs.dropWhile isGapChar).take (commentLength (cs.dropWhile isGapChar))

/-- The text behind its gap. -/
def behindGap (cs : List Char) : List Char :=
  (cs.dropWhile isGapChar).drop (commentLength (cs.dropWhile isGapChar))

theorem gapOf_append_behindGap (cs : List Char) : gapOf cs ++ behindGap cs = cs := by
  rw [gapOf, behindGap, List.append_assoc, List.take_append_drop, List.takeWhile_append_dropWhile]

/-- A comment is the rest of its line. -/
theorem commentLength_of_marked {cs : List Char} (h : ['/', '/'] <+: cs) :
    commentLength cs = (restOfLine cs).length := by
  obtain ⟨rest, rfl⟩ := h
  rfl

theorem commentLength_of_unmarked {cs : List Char} (h : ¬ ['/', '/'] <+: cs) :
    commentLength cs = 0 := by
  unfold commentLength
  split
  · exact absurd (by simp) h
  · rfl

/-- What stands behind a run of a class is not of the class. -/
theorem eq_false_of_dropWhile_eq_cons {p : Char → Bool} {cs rest : List Char} {c : Char}
    (h : cs.dropWhile p = c :: rest) : p c = false := by
  have hne : cs.dropWhile p ≠ [] := by simp [h]
  have hhead := List.head_dropWhile_not p hne
  rwa [List.head_eq_iff_head?_eq_some hne |>.2 (by rw [h]; rfl)] at hhead

/-- What stands behind the rest of a line is a line break, if anything does. -/
theorem dropWhile_line_cases (cs : List Char) :
    cs.dropWhile (· ≠ '\n') = [] ∨ ∃ rest, cs.dropWhile (· ≠ '\n') = '\n' :: rest := by
  cases h : cs.dropWhile (· ≠ '\n') with
  | nil => exact Or.inl rfl
  | cons c rest =>
      have hc : c = '\n' := by simpa using eq_false_of_dropWhile_eq_cons h
      exact Or.inr ⟨rest, by rw [hc]⟩

/-- No line break stands in a gap. -/
theorem newline_not_mem_of_isGap {following gap : List Char} (h : IsGap following gap) :
    '\n' ∉ gap := by
  induction h with
  | nil => simp
  | blank separates rest ih =>
      rw [List.mem_cons, not_or]
      refine ⟨?_, ih⟩
      rcases separates with rfl | rfl | rfl <;> decide
  | comment oneLine whole => simp [oneLine]

/-- **The gap at the beginning of a text** is a gap, and behind it stands a token or nothing. -/
theorem isGap_gapOf (cs : List Char) :
    IsGap (behindGap cs) (gapOf cs) ∧ StartsToken (behindGap cs) := by
  have hblanks : ∀ c ∈ cs.takeWhile isGapChar, isGapChar c = true := fun c hc =>
    List.mem_takeWhile_imp hc
  by_cases hcomment : ['/', '/'] <+: cs.dropWhile isGapChar
  · -- a comment: what follows is the rest of the text from the end of the line on
    have hgap : gapOf cs = cs.takeWhile isGapChar ++ restOfLine (cs.dropWhile isGapChar) := by
      rw [gapOf, commentLength_of_marked hcomment, restOfLine, take_takeWhile_length]
    have hbehind : behindGap cs = (cs.dropWhile isGapChar).dropWhile (· ≠ '\n') := by
      rw [behindGap, commentLength_of_marked hcomment, restOfLine, drop_takeWhile_length]
    obtain ⟨text, htext⟩ := hcomment
    have hline : restOfLine (cs.dropWhile isGapChar) = '/' :: '/' :: restOfLine text := by
      rw [← htext]
      simp [restOfLine]
    have honeLine : '\n' ∉ restOfLine text := fun hmem => by
      simpa using List.mem_takeWhile_imp hmem
    rw [hgap, hbehind, hline]
    rcases dropWhile_line_cases (cs.dropWhile isGapChar) with hend | ⟨rest, hend⟩
    · rw [hend]
      exact ⟨isGap_append hblanks (.comment honeLine (Or.inl rfl)), by simp [StartsToken]⟩
    · rw [hend]
      exact ⟨isGap_append hblanks (.comment honeLine (Or.inr rfl)), by simp [StartsToken]⟩
  · have hgap : gapOf cs = cs.takeWhile isGapChar ++ [] := by
      rw [gapOf, commentLength_of_unmarked hcomment, List.take_zero]
    have hbehind : behindGap cs = cs.dropWhile isGapChar := by
      rw [behindGap, commentLength_of_unmarked hcomment, List.drop_zero]
    rw [hgap, hbehind]
    refine ⟨isGap_append hblanks .nil, fun c hc => ?_, hcomment⟩
    obtain ⟨rest, hrest⟩ := List.head?_eq_some_iff.1 hc
    simpa [isGapChar, and_assoc] using eq_false_of_dropWhile_eq_cons hrest

/-! ### One token -/

/-- A token other than a line break stays on its line, and a line break is one. -/
theorem isLexeme_newline_cases {cs w : List Char} {kind : TokenKind} (h : IsLexeme cs kind w) :
    (kind = .newline ∧ w = ['\n']) ∨ (kind ≠ .newline ∧ '\n' ∉ w) := by
  have hname : isNameChar '\n' = false := by decide
  have hdigit : isDigit '\n' = false := by decide
  cases h with
  | word munch table =>
      refine Or.inr ⟨?_, fun hmem => ?_⟩
      · cases table with
        | reserved entry =>
            have hkinds : ∀ entry ∈ keywordEntries, entry.2 ≠ .newline := by decide
            exact hkinds _ entry
        | identifier => simp
      · obtain ⟨c, rest, rfl, hc, hrest⟩ := munch.fits
        rcases List.mem_cons.1 hmem with rfl | hmem
        · exact absurd hc (by decide)
        · exact absurd (hrest _ hmem) (by simp [hname])
  | number _ munch =>
      refine Or.inr ⟨by split <;> simp, fun hmem => ?_⟩
      rcases munch.fits with hdigits | ⟨whole, fraction, hwhole, hfraction, rfl⟩
      · exact absurd (hdigits.2 _ hmem) (by simp [hdigit])
      · rcases List.mem_append.1 hmem with hmem | hmem
        · exact absurd (hwhole _ hmem) (by simp [hdigit])
        · rcases List.mem_cons.1 hmem with heq | hmem
          · exact absurd heq (by decide)
          · exact absurd (hfraction.2 _ hmem) (by simp [hdigit])
  | newline => exact Or.inl ⟨rfl, rfl⟩
  | operator _ _ _ table =>
      have hentries : ∀ entry ∈ operatorEntries, entry.2 ≠ .newline ∧ '\n' ∉ entry.1.toList := by
        decide
      simpa using Or.inr (hentries _ table)
  | illegal _ _ _ noBreak => exact Or.inr ⟨by simp, by simpa using Ne.symm noBreak⟩

/-- No token before the end of the text is the end of the text. -/
theorem isLexeme_ne_endOfFile {cs w : List Char} {kind : TokenKind} (h : IsLexeme cs kind w) :
    kind ≠ .endOfFile := by
  cases h with
  | word _ table =>
      cases table with
      | reserved entry =>
          have hkinds : ∀ entry ∈ keywordEntries, entry.2 ≠ .endOfFile := by decide
          exact hkinds _ entry
      | identifier => simp
  | number => split <;> simp
  | newline => simp
  | operator _ _ _ table =>
      have hkinds : ∀ entry ∈ operatorEntries, entry.2 ≠ .endOfFile := by decide
      exact hkinds _ table
  | illegal => simp

/-- The place behind a token is the place behind the text up to it. -/
theorem placeAfter_positionAfter {cs w : List Char} {kind : TokenKind} (h : IsLexeme cs kind w)
    (before : List Char) :
    placeAfter (positionAfter before) kind w.length = positionAfter (before ++ w) := by
  rcases isLexeme_newline_cases h with ⟨rfl, rfl⟩ | ⟨hkind, hw⟩
  · exact (positionAfter_newline before).symm
  · rw [positionAfter_append hw]
    unfold placeAfter
    split
    · exact absurd rfl hkind
    · rfl

/-- The gap of a text is as long as its blanks and its comment together. -/
theorem length_gapOf (cs : List Char) :
    (gapOf cs).length =
      (cs.takeWhile isGapChar).length + commentLength (cs.dropWhile isGapChar) := by
  rw [gapOf, List.length_append, List.length_take, Nat.min_eq_left]
  by_cases hcomment : ['/', '/'] <+: cs.dropWhile isGapChar
  · rw [commentLength_of_marked hcomment]
    exact (List.takeWhile_prefix _).length_le
  · rw [commentLength_of_unmarked hcomment]
    exact Nat.zero_le _

/-- At the end of a text the token stands behind the gap. -/
theorem readToken_of_behindGap_nil {cs : List Char} (place : Position) (h : behindGap cs = []) :
    ∃ comment, readToken cs place =
      ⟨⟨.endOfFile, "", place.right (gapOf cs).length, comment⟩, [],
        place.right (gapOf cs).length⟩ := by
  rw [behindGap] at h
  simp only [readToken, drop_takeWhile_length, Position.right_right, ← length_gapOf, h]
  exact ⟨_, rfl⟩

/-- Otherwise the token begins with the first character behind the gap. -/
theorem readToken_of_behindGap_cons {cs rest : List Char} {c : Char} (place : Position)
    (h : behindGap cs = c :: rest) :
    ∃ comment, readToken cs place =
      ⟨⟨(lexeme c rest).1, String.ofList ((c :: rest).take (lexeme c rest).2),
          place.right (gapOf cs).length, comment⟩,
        (c :: rest).drop (lexeme c rest).2,
        placeAfter (place.right (gapOf cs).length) (lexeme c rest).1 (lexeme c rest).2⟩ := by
  rw [behindGap] at h
  simp only [readToken, drop_takeWhile_length, Position.right_right, ← length_gapOf, h]
  exact ⟨_, rfl⟩

/-- **Reading one token.** Either only a gap is left, and the token is the end of the text behind
it; or the token is a piece of the text, and reading goes on right behind it. -/
theorem readToken_cases (before cs : List Char) :
    (IsGap [] cs ∧ (readToken cs (positionAfter before)).token.kind = .endOfFile ∧
        (readToken cs (positionAfter before)).token.text = "" ∧
        (readToken cs (positionAfter before)).token.start = positionAfter (before ++ cs)) ∨
      ∃ piece : Piece, (readToken cs (positionAfter before)).token = piece.token ∧
        cs = piece.chars ++ (readToken cs (positionAfter before)).rest ∧
        piece.token.text.toList ≠ [] ∧
        piece.Fits before (readToken cs (positionAfter before)).rest ∧
        (readToken cs (positionAfter before)).next = positionAfter (before ++ piece.chars) := by
  obtain ⟨hgap, hstarts⟩ := isGap_gapOf cs
  have hsplit := gapOf_append_behindGap cs
  have hstart : (positionAfter before).right (gapOf cs).length =
      positionAfter (before ++ gapOf cs) :=
    (positionAfter_append (newline_not_mem_of_isGap hgap)).symm
  cases hbehind : behindGap cs with
  | nil =>
      obtain ⟨comment, hread⟩ := readToken_of_behindGap_nil (positionAfter before) hbehind
      rw [hbehind, List.append_nil] at hsplit
      rw [hbehind, hsplit] at hgap
      rw [hread, hstart, hsplit]
      exact Or.inl ⟨hgap, rfl, rfl, rfl⟩
  | cons c rest =>
      obtain ⟨comment, hread⟩ := readToken_of_behindGap_cons (positionAfter before) hbehind
      rw [hbehind] at hgap hstarts hsplit
      obtain ⟨w, hlexeme, hlength, ⟨after, hafter⟩, hne⟩ := lexeme_isLexeme hstarts.2
      have htake : (c :: rest).take w.length = w := by rw [← hafter, List.take_left]
      have hdrop : (c :: rest).drop w.length = after := by rw [← hafter, List.drop_left]
      rw [hread, hstart, hlength, htake, hdrop, placeAfter_positionAfter hlexeme]
      refine Or.inr ⟨⟨gapOf cs, _⟩, rfl, ?_, ?_, ?_, ?_⟩
      · rw [Piece.chars, String.toList_ofList, List.append_assoc, hafter, hsplit]
      · rwa [String.toList_ofList]
      · constructor <;> simp only [String.toList_ofList, hafter]
        · exact hgap
        · exact hstarts
        · exact hlexeme
        · exact isLexeme_ne_endOfFile hlexeme
      · rw [Piece.chars, String.toList_ofList, List.append_assoc]

/-! ### All tokens -/

/-- The pieces of a text with the gap behind the last one, in front of the end of the text. -/
structure Covers (before cs : List Char) (tokens : List Token) (ending : Token)
    (pieces : List Piece) (gap : List Char) : Prop where
  tokens_eq : tokens = pieces.map (·.token)
  chars_eq : cs = pieces.flatMap Piece.chars ++ gap
  fits : ∀ front piece back, pieces = front ++ piece :: back →
    piece.Fits (before ++ front.flatMap Piece.chars) (back.flatMap Piece.chars ++ gap)
  gap_isGap : IsGap [] gap
  ending_kind : ending.kind = .endOfFile
  ending_text : ending.text = ""
  ending_start : ending.start = positionAfter (before ++ cs)

/-- A piece in front of a covered text. -/
theorem Covers.cons {before cs : List Char} {tokens : List Token} {ending : Token}
    {pieces : List Piece} {gap : List Char} {piece : Piece} (hfits : piece.Fits before cs)
    (h : Covers (before ++ piece.chars) cs tokens ending pieces gap) :
    Covers before (piece.chars ++ cs) (piece.token :: tokens) ending (piece :: pieces) gap where
  tokens_eq := by rw [h.tokens_eq, List.map_cons]
  chars_eq := by rw [List.flatMap_cons, List.append_assoc, ← h.chars_eq]
  fits := by
    intro front other back heq
    cases front with
    | nil =>
        obtain ⟨rfl, rfl⟩ := List.cons.inj heq
        simpa [← h.chars_eq] using hfits
    | cons first front =>
        obtain ⟨rfl, hpieces⟩ := List.cons.inj heq
        simpa [List.append_assoc] using h.fits front other back hpieces
  gap_isGap := h.gap_isGap
  ending_kind := h.ending_kind
  ending_text := h.ending_text
  ending_start := by rw [h.ending_start, List.append_assoc]

/-- **A whole run.** With more rounds than characters, the tokens cover the text. -/
theorem streamFrom_covers (fuel : Nat) (before cs : List Char) (h : cs.length < fuel) :
    ∃ pieces gap, Covers before cs (streamFrom fuel cs (positionAfter before)).tokens
      (streamFrom fuel cs (positionAfter before)).ending pieces gap := by
  induction fuel generalizing before cs with
  | zero => exact absurd h (Nat.not_lt_zero _)
  | succ fuel ih =>
      rw [streamFrom]
      rcases readToken_cases before cs with ⟨hgap, hkind, htext, hstart⟩ |
        ⟨piece, htoken, hchars, hne, hfits, hnext⟩
      · simp only [hkind, if_true]
        exact ⟨[], cs, rfl, rfl, fun front piece back heq => by simp at heq, hgap, hkind, htext,
          hstart⟩
      · have hkind : (readToken cs (positionAfter before)).token.kind ≠ .endOfFile := by
          rw [htoken]
          exact hfits.notEnding
        have hshorter : (readToken cs (positionAfter before)).rest.length < fuel := by
          have hlength := congrArg List.length hchars
          have := List.length_pos_iff.2 hne
          simp only [Piece.chars, List.length_append] at hlength
          omega
        obtain ⟨pieces, gap, hcovers⟩ := ih (before ++ piece.chars) _ hshorter
        rw [← hnext] at hcovers
        simp only [hkind, if_false]
        refine ⟨piece :: pieces, gap, ?_⟩
        have := hcovers.cons hfits
        rw [htoken]
        rwa [← hchars] at this

/-- No two tokens begin at the same place, and none begins before the text does. -/
theorem streamFrom_starts (fuel : Nat) (before cs : List Char) :
    (∀ token ∈ (streamFrom fuel cs (positionAfter before)).tokens,
        ∃ w, token.start = positionAfter (before ++ w)) ∧
      ((streamFrom fuel cs (positionAfter before)).tokens.map (·.start)).Nodup := by
  induction fuel generalizing before cs with
  | zero => exact ⟨nofun, .nil⟩
  | succ fuel ih =>
      rw [streamFrom]
      rcases readToken_cases before cs with ⟨-, hkind, -, -⟩ | ⟨piece, htoken, -, hne, hfits, hnext⟩
      · simp only [hkind, if_true]
        exact ⟨nofun, .nil⟩
      · have hkind : (readToken cs (positionAfter before)).token.kind ≠ .endOfFile := by
          rw [htoken]
          exact hfits.notEnding
        obtain ⟨hplaces, hnodup⟩ := ih (before ++ piece.chars) (readToken cs (positionAfter before)).rest
        rw [← hnext] at hplaces hnodup
        simp only [hkind, if_false, List.map_cons]
        constructor
        · intro token hmem
          rcases List.mem_cons.1 hmem with rfl | hmem
          · exact ⟨piece.gap, by rw [htoken, hfits.placed]⟩
          · obtain ⟨w, hw⟩ := hplaces token hmem
            exact ⟨piece.chars ++ w, by rw [hw, List.append_assoc]⟩
        · refine List.nodup_cons.2 ⟨fun hmem => ?_, hnodup⟩
          obtain ⟨token, htail, hstart⟩ := List.mem_map.1 hmem
          obtain ⟨w, hw⟩ := hplaces token htail
          rw [htoken, hfits.placed, hw, Piece.chars, ← List.append_assoc, List.append_assoc _ _ w]
            at hstart
          exact positionAfter_append_ne (before ++ piece.gap) (List.append_ne_nil_of_left_ne_nil hne w)
            hstart

theorem tokenStream_starts_nodup (source : String) :
    ((tokenStream source).tokens.map (·.start)).Nodup :=
  (streamFrom_starts _ [] source.toList).2

/-- The tokens of a source text cover it. -/
theorem tokenStream_covers (source : String) :
    ∃ pieces gap, Covers [] source.toList (tokenStream source).tokens (tokenStream source).ending
      pieces gap :=
  streamFrom_covers _ [] source.toList (Nat.lt_succ_self _)

/-- The token behind all others is the end of the text. -/
theorem tokenStream_ending_kind (source : String) :
    (tokenStream source).ending.kind = .endOfFile := by
  obtain ⟨pieces, gap, h⟩ := tokenStream_covers source
  exact h.ending_kind

/-- It begins behind the last character. -/
theorem tokenStream_ending_start (source : String) :
    (tokenStream source).ending.start = positionAfter source.toList := by
  obtain ⟨pieces, gap, h⟩ := tokenStream_covers source
  exact h.ending_start

/-- Only the last token of a text is its end. -/
theorem kind_ne_of_mem_tokenStream {source : String} {token : Token}
    (h : token ∈ (tokenStream source).tokens) : token.kind ≠ .endOfFile := by
  obtain ⟨pieces, gap, hcovers⟩ := tokenStream_covers source
  have hmem : token ∈ pieces.map (·.token) := hcovers.tokens_eq ▸ h
  obtain ⟨piece, hpiece, rfl⟩ := List.mem_map.1 hmem
  obtain ⟨front, back, heq⟩ := List.append_of_mem hpiece
  exact (hcovers.fits front piece back heq).notEnding

/-- **Tokens cover their source text.** A source text is its tokens with gaps in front of them and
one behind the last. Each token is what maximal munch finds where it starts, and its place is that
of its first character. The last token and only the last one is the end of the text, and it has no
characters. -/
theorem tokenize_covers (source : String) :
    ∃ (pieces : List Piece) (gap : List Char) (ending : Token),
      tokenize source = pieces.map (·.token) ++ [ending] ∧
      source.toList = pieces.flatMap Piece.chars ++ gap ∧
      (∀ front piece back, pieces = front ++ piece :: back →
        piece.Fits (front.flatMap Piece.chars) (back.flatMap Piece.chars ++ gap)) ∧
      IsGap [] gap ∧
      ending.kind = .endOfFile ∧ ending.text = "" ∧
      ending.start = positionAfter source.toList := by
  obtain ⟨pieces, gap, h⟩ :=
    streamFrom_covers (source.toList.length + 1) [] source.toList (Nat.lt_succ_self _)
  refine ⟨pieces, gap, _, ?_, h.chars_eq, h.fits, h.gap_isGap, h.ending_kind, h.ending_text,
    h.ending_start⟩
  rw [← h.tokens_eq]
  rfl

end Token

end ProcLang
