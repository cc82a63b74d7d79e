import Mathlib.Data.List.Basic
import ProcLang.Proofs.Token.Coverage

/-!
# ProcLang.Proofs.Token.Reading

**A text is read in one way.** `MadeOf cs words` says that a text consists of the given words with gaps
around them, where each word is what maximal munch finds in front of what follows it. Every source text
is made of the words of its tokens (`madeOf_tokenStream`), and a text that is made of words is read as
these words (`map_word_tokenStream`). So the tokens of a changed text are found by showing what it is
made of.

A gap is determined by what stands behind it, and a token by maximal munch (`IsLexeme.unique`). What
stands behind a token may change as long as the token could not reach further into the new text
(`IsLexeme.before`).
-/

namespace ProcLang

namespace Token

/-! ### Characters of words, numbers and operators -/

/-- The shape of a word, a number or an operator. -/
def IsShape (w : List Char) : Prop := IsWord w ∨ IsNumber w ∨ IsOperator w

theorem IsWord.free_of_isNameChar {w : List Char} (h : IsWord w) {c : Char}
    (hc : isNameChar c = false) : c ∉ w := by
  intro hmem
  have hall : ∀ d ∈ w, isNameChar d = true := by
    obtain ⟨d, rest, rfl, hd, hrest⟩ := h
    refine List.forall_mem_cons.2 ⟨?_, hrest⟩
    rw [isNameChar, hd, Bool.true_or]
  rw [hall c hmem] at hc
  nomatch hc

theorem IsNumber.digit_or_point {w : List Char} (h : IsNumber w) :
    ∀ c ∈ w, isDigit c = true ∨ c = '.' := by
  rcases h with hdigits | ⟨whole, fraction, hwhole, hfraction, rfl⟩
  · exact fun c hc => Or.inl (hdigits.2 c hc)
  · intro c hc
    rcases List.mem_append.1 hc with hc | hc
    · exact Or.inl (hwhole c hc)
    · exact (List.mem_cons.1 hc).symm.imp_left (hfraction.2 c)

theorem IsNumber.not_mem {w : List Char} (h : IsNumber w) {c : Char} (hdigit : isDigit c = false)
    (hpoint : c ≠ '.') : c ∉ w := by
  intro hmem
  rcases h.digit_or_point c hmem with hc | hc
  · rw [hc] at hdigit
    nomatch hdigit
  · exact hpoint hc

/-- Neither blanks nor line breaks stand in a word, a number or an operator. -/
theorem IsShape.not_mem {w : List Char} (h : IsShape w) {c : Char} (hc : c = ' ' ∨ c = '\n') :
    c ∉ w := by
  have hclass : isNameChar c = false ∧ isDigit c = false ∧ c ≠ '.' := by
    rcases hc with rfl | rfl
    · decide
    · decide
  obtain ⟨hname, hdigit, hpoint⟩ := hclass
  rcases h with hword | hnumber | ⟨kind, hentry⟩
  · exact hword.free_of_isNameChar hname
  · exact hnumber.not_mem hdigit hpoint
  · have htable : ∀ entry ∈ operatorEntries, ' ' ∉ entry.1.toList ∧ '\n' ∉ entry.1.toList := by
      decide
    obtain ⟨hblank, hbreak⟩ := htable _ hentry
    rw [String.toList_ofList] at hblank hbreak
    rcases hc with rfl | rfl
    · exact hblank
    · exact hbreak

theorem IsShape.ne_nil {w : List Char} (h : IsShape w) : w ≠ [] := by
  rcases h with ⟨c, rest, rfl, -, -⟩ | hnumber | hoperator
  · simp
  · rcases hnumber with hdigits | ⟨whole, fraction, -, -, rfl⟩
    · exact hdigits.1
    · simp
  · exact isOperator_ne_nil hoperator

/-! ### The token at the beginning of a text is determined -/

theorem IsLongest.unique {shape : List Char → Prop} {cs v w : List Char}
    (hv : IsLongest shape cs v) (hw : IsLongest shape cs w) : v = w := by
  have hlength : v.length = w.length :=
    Nat.le_antisymm (hw.longest v hv.fits hv.begins) (hv.longest w hw.fits hw.begins)
  exact (List.prefix_of_prefix_length_le hv.begins hw.begins hlength.le).eq_of_length hlength

/-- A table without repetitions has one kind for each text. -/
theorem entry_unique {entries : List (String × TokenKind)} (distinct : (entries.map (·.1)).Nodup)
    {text : String} {k k' : TokenKind} (h : (text, k) ∈ entries) (h' : (text, k') ∈ entries) :
    k = k' :=
  Option.some.inj (((PrefixTree.lookup_eq_some_iff_mem distinct text k).2 h).symm.trans
    ((PrefixTree.lookup_eq_some_iff_mem distinct text k').2 h'))

theorem IsWordKind.unique {w : List Char} {k k' : TokenKind} (h : IsWordKind w k)
    (h' : IsWordKind w k') : k = k' := by
  cases h with
  | reserved entry =>
      cases h' with
      | reserved entry' => exact entry_unique keywordEntries_distinct entry entry'
      | identifier absent => exact absurd entry (absent _)
  | identifier absent =>
      cases h' with
      | reserved entry' => exact absurd entry' (absent _)
      | identifier _ => rfl

/-- No word, number or operator begins with a line break. -/
theorem not_begins_newline {rest w : List Char} (h : IsShape w) : ¬ w <+: '\n' :: rest := by
  intro hbegins
  obtain ⟨c, more, rfl⟩ := List.exists_cons_of_ne_nil h.ne_nil
  obtain rfl := (List.cons_prefix_cons.1 hbegins).1
  exact h.not_mem (Or.inr rfl) List.mem_cons_self

/-- **Maximal munch finds one token.** -/
theorem IsLexeme.unique {cs v w : List Char} {k k' : TokenKind} (h : IsLexeme cs k v)
    (h' : IsLexeme cs k' w) : k = k' ∧ v = w := by
  cases h with
  | word munch table =>
      cases h' with
      | word munch' table' =>
          obtain rfl := munch.unique munch'
          exact ⟨table.unique table', rfl⟩
      | number noWord | operator noWord | illegal _ noWord =>
          exact absurd munch.begins (noWord _ munch.fits)
      | newline text =>
          exact absurd (text ▸ munch.begins) (not_begins_newline (Or.inl munch.fits))
  | number noWord munch =>
      cases h' with
      | word munch' _ => exact absurd munch'.begins (noWord _ munch'.fits)
      | number _ munch' =>
          obtain rfl := munch.unique munch'
          exact ⟨rfl, rfl⟩
      | newline text =>
          exact absurd (text ▸ munch.begins) (not_begins_newline (Or.inr (Or.inl munch.fits)))
      | operator _ noNumber | illegal _ _ noNumber =>
          exact absurd munch.begins (noNumber _ munch.fits)
  | newline text =>
      cases h' with
      | word munch' _ =>
          exact absurd (text ▸ munch'.begins) (not_begins_newline (Or.inl munch'.fits))
      | number _ munch' =>
          exact absurd (text ▸ munch'.begins) (not_begins_newline (Or.inr (Or.inl munch'.fits)))
      | newline => exact ⟨rfl, rfl⟩
      | operator _ _ munch' =>
          exact absurd (text ▸ munch'.begins) (not_begins_newline (Or.inr (Or.inr munch'.fits)))
      | illegal text' _ _ noBreak => exact absurd (List.cons.inj (text'.symm.trans text)).1 noBreak
  | operator noWord noNumber munch table _ =>
      cases h' with
      | word munch' _ => exact absurd munch'.begins (noWord _ munch'.fits)
      | number _ munch' => exact absurd munch'.begins (noNumber _ munch'.fits)
      | newline text =>
          exact absurd (text ▸ munch.begins) (not_begins_newline (Or.inr (Or.inr munch.fits)))
      | operator _ _ munch' table' =>
          obtain rfl := munch.unique munch'
          exact ⟨entry_unique operatorEntries_distinct table table', rfl⟩
      | illegal _ _ _ _ noOperator => exact absurd munch.begins (noOperator _ munch.fits)
  | illegal text noWord noNumber noBreak noOperator =>
      cases h' with
      | word munch' _ => exact absurd munch'.begins (noWord _ munch'.fits)
      | number _ munch' => exact absurd munch'.begins (noNumber _ munch'.fits)
      | newline text' => exact absurd (List.cons.inj (text.symm.trans text')).1 noBreak
      | operator _ _ munch' => exact absurd munch'.begins (noOperator _ munch'.fits)
      | illegal text' =>
          obtain ⟨rfl, -⟩ := List.cons.inj (text.symm.trans text')
          exact ⟨rfl, rfl⟩

/-- Every token has a character. -/
theorem IsLexeme.ne_nil {cs w : List Char} {kind : TokenKind} (h : IsLexeme cs kind w) : w ≠ [] := by
  cases h with
  | word munch _ => exact IsShape.ne_nil (Or.inl munch.fits)
  | number _ munch => exact IsShape.ne_nil (Or.inr (Or.inl munch.fits))
  | operator _ _ munch => exact IsShape.ne_nil (Or.inr (Or.inr munch.fits))
  | newline | illegal => simp

/-! ### What stands behind a token -/

section

variable {v w after after' : List Char} {kind : TokenKind}

/-- No word, number or operator that begins with `w` reaches further into `after'` than into
`after`. -/
def Confined (w after after' : List Char) : Prop :=
  ∀ v, IsShape v → v <+: w ++ after' → v <+: w ++ after

/-- What begins in front of a character and does not hold it ends in front of it. -/
theorem prefix_of_not_mem {rest : List Char} {c : Char} (h : v <+: w ++ c :: rest) (hc : c ∉ v) : v <+: w := by
  rcases Nat.le_total v.length w.length with hle | hle
  · exact List.prefix_of_prefix_length_le h (List.prefix_append _ _) hle
  · by_cases heq : v.length = w.length
    · exact List.prefix_of_prefix_length_le h (List.prefix_append _ _) heq.le
    · have hlonger : w ++ [c] <+: v := by
        have hbegins : w ++ [c] <+: w ++ c :: rest :=
          (List.prefix_append_right_inj w).2 ⟨rest, rfl⟩
        refine List.prefix_of_prefix_length_le hbegins h ?_
        rw [List.length_append, List.length_singleton]
        omega
      exact absurd (hlonger.subset (by simp)) hc

/-- A blank confines every token. -/
theorem confined_blank (w after rest : List Char) : Confined w after (' ' :: rest) := by
  intro v hv hbegins
  have hinside : v <+: w := prefix_of_not_mem hbegins (hv.not_mem (Or.inl rfl))
  exact hinside.trans (List.prefix_append w after)

theorem IsLongest.before {shape : List Char → Prop} (hshape : ∀ v, shape v → IsShape v)
    (h : IsLongest shape (w ++ after) w) (hconfined : Confined w after after') :
    IsLongest shape (w ++ after') w where
  fits := h.fits
  begins := List.prefix_append w after'
  longest other hother hbegins := h.longest other hother (hconfined other (hshape other hother) hbegins)

theorem BeginsWithNo.before {shape : List Char → Prop} (hshape : ∀ v, shape v → IsShape v)
    (h : BeginsWithNo shape (w ++ after)) (hconfined : Confined w after after') :
    BeginsWithNo shape (w ++ after') :=
  fun v hv hbegins => h v hv (hconfined v (hshape v hv) hbegins)

/-- **A token stays the same** in front of a text that it cannot reach into. -/
theorem IsLexeme.before (h : IsLexeme (w ++ after) kind w) (hconfined : Confined w after after') :
    IsLexeme (w ++ after') kind w := by
  have hword : ∀ v, IsWord v → IsShape v := fun _ => Or.inl
  have hnumber : ∀ v, IsNumber v → IsShape v := fun _ hv => Or.inr (Or.inl hv)
  have hoperator : ∀ v, IsOperator v → IsShape v := fun _ hv => Or.inr (Or.inr hv)
  cases h with
  | word munch table => exact .word (munch.before hword hconfined) table
  | number noWord munch =>
      exact .number (noWord.before hword hconfined) (munch.before hnumber hconfined)
  | newline => exact .newline rfl
  | operator noWord noNumber munch table noComment =>
      exact .operator (noWord.before hword hconfined) (noNumber.before hnumber hconfined)
        (munch.before hoperator hconfined) table noComment
  | illegal _ noWord noNumber noBreak noOperator =>
      exact .illegal rfl (noWord.before hword hconfined) (noNumber.before hnumber hconfined) noBreak
        (noOperator.before hoperator hconfined)

/-- Neither does a token become a comment there, since the mark of a comment is an operator. -/
theorem StartsToken.before (hne : w ≠ []) (h : StartsToken (w ++ after))
    (hconfined : Confined w after after') : StartsToken (w ++ after') := by
  obtain ⟨c, more, rfl⟩ := List.exists_cons_of_ne_nil hne
  have hmark : IsOperator ['/', '/'] := ⟨.comment, by decide⟩
  refine ⟨fun d hd => h.1 d hd, fun hcomment => h.2 ?_⟩
  exact hconfined _ (Or.inr (Or.inr hmark)) hcomment

end

/-! ### Gaps -/

theorem behindGap_of_startsToken {cs : List Char} (h : StartsToken cs) : behindGap cs = cs := by
  have hdrop : cs.dropWhile isGapChar = cs := by
    cases cs with
    | nil => rfl
    | cons c rest =>
        have hc : isGapChar c = false := by
          obtain ⟨hblank, htab, hreturn⟩ := h.1 c rfl
          simp [isGapChar, hblank, htab, hreturn]
        rw [List.dropWhile_cons, hc]
        rfl
  rw [behindGap, hdrop, commentLength_of_unmarked h.2, List.drop_zero]

/-- **Behind a gap** reading goes on with what follows it. -/
theorem behindGap_append {following gap : List Char} (h : IsGap following gap)
    (hstarts : StartsToken following) : behindGap (gap ++ following) = following := by
  induction h with
  | nil => exact behindGap_of_startsToken hstarts
  | @blank c gap separates _ ih =>
      have hc : isGapChar c = true := (isGapChar_iff c).2 separates
      rw [List.cons_append, behindGap, List.dropWhile_cons_of_pos hc]
      exact ih
  | @comment body oneLine whole =>
      -- the comment reaches to the end of its line, and there the gap ends
      have hline : restOfLine ('/' :: '/' :: body ++ following) = '/' :: '/' :: body := by
        have hbody : ∀ c ∈ '/' :: '/' :: body, decide (c ≠ '\n') = true := by
          intro c hc
          have hne : c ≠ '\n' := by
            rintro rfl
            simp [oneLine] at hc
          simpa using hne
        rw [restOfLine, List.takeWhile_append_of_pos hbody]
        rcases whole with rfl | hhead
        · simp
        · obtain ⟨rest, rfl⟩ := List.head?_eq_some_iff.1 hhead
          simp
      have hdrop : ('/' :: '/' :: body ++ following).dropWhile isGapChar =
          '/' :: '/' :: body ++ following := rfl
      have hlength : commentLength ('/' :: '/' :: body ++ following) = ('/' :: '/' :: body).length := by
        rw [commentLength_of_marked (by simp), hline]
      rw [behindGap, hdrop, hlength, List.drop_left]

/-- Behind a gap at the end of a text stands nothing. -/
theorem IsGap.behindGap_eq_nil {gap : List Char} (h : IsGap [] gap) : behindGap gap = [] := by
  have hgap := behindGap_append h ⟨by simp, by simp⟩
  rwa [List.append_nil] at hgap

/-- At most one blank is a gap. -/
theorem isGap_of_blank {following gap : List Char} (h : gap = [] ∨ gap = [' ']) :
    IsGap following gap := by
  rcases h with rfl | rfl
  · exact .nil
  · exact .blank (Or.inl rfl) .nil

/-- What stands behind a gap may change, as long as a comment still ends there. -/
theorem IsGap.before {following following' gap : List Char} (h : IsGap following gap)
    (hends : following = [] ∨ following.head? = some '\n' →
      following' = [] ∨ following'.head? = some '\n') : IsGap following' gap := by
  induction h with
  | nil => exact .nil
  | blank separates _ ih => exact .blank separates ih
  | comment oneLine whole => exact .comment oneLine (hends whole)

/-! ### Texts made of words -/

/-- The kind and the text of a token: what is left of it without its place. -/
def word (token : Token) : TokenKind × String := (token.kind, token.text)

/-- A text consists of words: each one stands behind a gap and is what maximal munch finds in front of
the rest, and behind the last one stands a gap. -/
inductive MadeOf : List Char → List (TokenKind × String) → Prop
  | nil {gap : List Char} (separated : IsGap [] gap) : MadeOf gap []
  | cons {gap after : List Char} {kind : TokenKind} {text : String}
      {words : List (TokenKind × String)} (separated : IsGap (text.toList ++ after) gap)
      (starts : StartsToken (text.toList ++ after))
      (lexeme : IsLexeme (text.toList ++ after) kind text.toList) (rest : MadeOf after words) :
      MadeOf (gap ++ (text.toList ++ after)) ((kind, text) :: words)

/-- A text is made of the words that are read from it. -/
theorem madeOf_streamFrom (fuel : Nat) (before cs : List Char) (h : cs.length < fuel) :
    MadeOf cs ((streamFrom fuel cs (positionAfter before)).tokens.map word) := by
  induction fuel generalizing before cs with
  | zero => exact absurd h (Nat.not_lt_zero _)
  | succ fuel ih =>
      rw [streamFrom]
      rcases readToken_cases before cs with ⟨hgap, hkind, -, -⟩ |
        ⟨piece, htoken, hchars, hne, hfits, hnext⟩
      · simp only [hkind, if_true]
        exact .nil hgap
      · have hkind : (readToken cs (positionAfter before)).token.kind ≠ .endOfFile := by
          rw [htoken]
          exact hfits.notEnding
        have hshorter : (readToken cs (positionAfter before)).rest.length < fuel := by
          have hlength := congrArg List.length hchars
          have hpos := List.length_pos_iff.2 hne
          simp only [Piece.chars, List.length_append] at hlength
          omega
        have hrest := ih (before ++ piece.chars) _ hshorter
        rw [← hnext] at hrest
        have hmade := MadeOf.cons hfits.separated hfits.starts hfits.lexeme hrest
        rw [← List.append_assoc, ← Piece.chars, ← hchars] at hmade
        simp only [hkind, if_false, List.map_cons]
        rwa [htoken]

/-- **Every source text is made of the words of its tokens.** -/
theorem madeOf_tokenStream (source : String) :
    MadeOf source.toList ((tokenStream source).tokens.map word) :=
  madeOf_streamFrom _ [] _ (Nat.lt_succ_self _)

/-- The words that a text is made of are read one after the other. -/
theorem MadeOf.map_word {cs : List Char} {words : List (TokenKind × String)} (h : MadeOf cs words)
    (fuel : Nat) (place : Position) (hfuel : cs.length < fuel) :
    (streamFrom fuel cs place).tokens.map word = words := by
  induction h generalizing fuel place with
  | @nil gap separated =>
      obtain ⟨fuel, rfl⟩ : ∃ n, fuel = n + 1 := ⟨fuel - 1, by omega⟩
      obtain ⟨comment, hread⟩ := readToken_of_behindGap_nil place separated.behindGap_eq_nil
      rw [streamFrom, hread]
      rfl
  | @cons gap after kind text words separated starts lexeme _ ih =>
      obtain ⟨fuel, rfl⟩ : ∃ n, fuel = n + 1 := ⟨fuel - 1, by omega⟩
      obtain ⟨c, more, hcons⟩ := List.exists_cons_of_ne_nil lexeme.ne_nil
      have hfirst : text.toList ++ after = c :: (more ++ after) := by rw [hcons, List.cons_append]
      have hbehind := (behindGap_append separated starts).trans hfirst
      rw [hfirst] at starts lexeme
      -- what `lexeme` finds is the word, since maximal munch finds one token only
      obtain ⟨w, hfound, hlength, -, -⟩ := lexeme_isLexeme starts.2
      obtain ⟨hkind, rfl⟩ := hfound.unique lexeme
      obtain ⟨comment, hread⟩ := readToken_of_behindGap_cons place hbehind
      rw [hlength, hkind, ← hfirst, List.take_left, List.drop_left] at hread
      have hnotEnding : kind ≠ .endOfFile := isLexeme_ne_endOfFile lexeme
      have hshorter : after.length < fuel := by
        have hpos := List.length_pos_iff.2 lexeme.ne_nil
        simp only [List.length_append] at hfuel
        omega
      rw [streamFrom, hread]
      simp only [if_neg hnotEnding, List.map_cons, ih fuel _ hshorter]
      simp [word]

/-- **A text that is made of words is read as these words.** -/
theorem map_word_tokenStream {cs : List Char} {words : List (TokenKind × String)}
    (h : MadeOf cs words) : (tokenStream (String.ofList cs)).tokens.map word = words := by
  rw [tokenStream, String.toList_ofList]
  exact h.map_word _ _ (Nat.lt_succ_self _)

/-- The end of a text is one word. -/
theorem word_ending (source : String) : word (tokenStream source).ending = (.endOfFile, "") := by
  obtain ⟨pieces, gap, hcovers⟩ := tokenStream_covers source
  exact Prod.ext hcovers.ending_kind hcovers.ending_text

/-- All words of a text, the end of the text being the last one. -/
theorem map_word_tokenize (source : String) :
    (tokenize source).map word =
      (tokenStream source).tokens.map word ++ [(TokenKind.endOfFile, "")] := by
  simp [tokenize, word_ending]

end Token

end ProcLang
