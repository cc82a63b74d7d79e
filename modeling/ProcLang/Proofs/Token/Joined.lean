import ProcLang.Proofs.Token.Reading

/-!
# ProcLang.Proofs.Token.Joined

**Printed tokens are read back.** The texts of the tokens of a source text, with single blanks between
them, are read as the same tokens (`map_word_tokenize_intercalate`). This holds of every source text,
whatever legal and illegal tokens it has.

The joined text is made of the words of the source text (`MadeOf.spaced`). A token is what maximal munch
finds in front of the rest of the source text, and no token reaches over the blank that now stands
behind it.
-/

namespace ProcLang

namespace Token

/-- The characters of words with a blank behind each of them. -/
def spaced (words : List (TokenKind × String)) : List Char :=
  words.flatMap fun word => word.2.toList ++ [' ']

/-- A text that ends with the empty text has a blank behind each of the texts before. -/
theorem toList_intercalate_ending (words : List (TokenKind × String)) :
    (String.intercalate " " (words.map (·.2) ++ [""])).toList = spaced words := by
  induction words with
  | nil => rfl
  | cons word words ih =>
      have hmore : words.map (·.2) ++ [""] ≠ [] := by simp
      rw [List.map_cons, List.cons_append, String.intercalate_cons_of_ne_nil hmore]
      simp only [String.toList_append, ih, spaced, List.flatMap_cons]
      rfl

/-- **Words with blanks behind them** are made of the same words as the text they were read from. -/
theorem MadeOf.spaced {cs : List Char} {words : List (TokenKind × String)} (h : MadeOf cs words) :
    ∀ lead : List Char, lead = [] ∨ lead = [' '] → MadeOf (lead ++ Token.spaced words) words := by
  -- The blank behind a word is the gap in front of the next one, so the induction is about words
  -- with a blank in front as well.
  induction h with
  | nil _ =>
      intro lead hlead
      rw [Token.spaced, List.flatMap_nil, List.append_nil]
      exact .nil (isGap_of_blank hlead)
  | @cons gap after kind text words _ starts lexeme _ ih =>
      intro lead hlead
      have hsplit : Token.spaced ((kind, text) :: words) =
          text.toList ++ ([' '] ++ Token.spaced words) := by
        simp [Token.spaced]
      have hconfined : Confined text.toList after ([' '] ++ Token.spaced words) :=
        confined_blank text.toList after (Token.spaced words)
      rw [hsplit]
      exact .cons (isGap_of_blank hlead) (starts.before lexeme.ne_nil hconfined) (lexeme.before hconfined)
        (ih [' '] (Or.inr rfl))

/-- **Reading what was printed is the identity.** The texts of all tokens of a source text, joined with
single blanks, are read as tokens of the same kinds and texts. -/
theorem map_word_tokenize_intercalate (source : String) :
    (tokenize (String.intercalate " " ((tokenize source).map (·.text)))).map word =
      (tokenize source).map word := by
  have htexts : (tokenize source).map (·.text) =
      ((tokenStream source).tokens.map word).map (·.2) ++ [""] := by
    have hwords := congrArg (List.map (·.2)) (map_word_tokenize source)
    simpa [word, Function.comp_def] using hwords
  have hmade := (madeOf_tokenStream source).spaced [] (Or.inl rfl)
  rw [List.nil_append, ← toList_intercalate_ending, ← htexts] at hmade
  have hread := map_word_tokenStream hmade
  rw [String.ofList_toList] at hread
  rw [map_word_tokenize, hread, map_word_tokenize]

end Token

end ProcLang
