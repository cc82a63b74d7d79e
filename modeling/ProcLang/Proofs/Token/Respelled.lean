import ProcLang.Proofs.Token.Reading

/-!
# ProcLang.Proofs.Token.Respelled

**Semicolons become line breaks.** `respell f source` is a source text with the text `f token` for each
token, and the gaps of the source text between them. If only semicolons are spelled anew, and as line
breaks, then the tokens of the new text are those of the source text, with a line break in place of each
semicolon that was respelled (`map_word_soften`).

A line break ends whatever stands in front of it: neither a word nor a number nor an operator reaches over
it, and a comment never stands in front of a semicolon. So the rest of a text may change in this way
without any effect on the token in front of it (`confined_of_softened`).
-/

namespace ProcLang

namespace Token

/-! ### Respelling -/

/-- The text from a place on with other texts for its tokens. -/
def respellFrom (f : Token → String) : Nat → List Char → Position → List Char
  | 0, cs, _ => cs
  | fuel + 1, cs, place =>
      let reading := readToken cs place
      if reading.token.kind = .endOfFile then cs
      else gapOf cs ++ (f reading.token).toList ++ respellFrom f fuel reading.rest reading.next

/-- The source text with other texts for its tokens. -/
def respell (f : Token → String) (source : String) : String :=
  String.ofList (respellFrom f (source.toList.length + 1) source.toList Position.origin)

/-- A text is its gap, its first token and the rest. -/
theorem readToken_split (cs : List Char) (place : Position)
    (h : (readToken cs place).token.kind ≠ .endOfFile) :
    cs = gapOf cs ++ (readToken cs place).token.text.toList ++ (readToken cs place).rest := by
  have hsplit := gapOf_append_behindGap cs
  cases hbehind : behindGap cs with
  | nil =>
      obtain ⟨comment, hread⟩ := readToken_of_behindGap_nil place hbehind
      rw [hread] at h
      exact absurd rfl h
  | cons c rest =>
      obtain ⟨comment, hread⟩ := readToken_of_behindGap_cons place hbehind
      rw [hread, String.toList_ofList, List.append_assoc, List.take_append_drop, ← hbehind, hsplit]

/-- Tokens that are spelled as before leave the text as it is. -/
theorem respell_text (source : String) : respell (·.text) source = source := by
  have hfrom : ∀ fuel cs place, respellFrom (·.text) fuel cs place = cs := by
    intro fuel
    induction fuel with
    | zero => exact fun _ _ => rfl
    | succ fuel ih =>
        intro cs place
        rw [respellFrom]
        split
        · rfl
        · rename_i hkind
          rw [ih]
          exact (readToken_split cs place hkind).symm
  rw [respell, hfrom, String.ofList_toList]

/-! ### Line breaks for semicolons -/

/-- The same character, or a line break for a semicolon. -/
def Softened (c c' : Char) : Prop := c' = c ∨ (c = ';' ∧ c' = '\n')

theorem softened_refl (cs : List Char) : List.Forall₂ Softened cs cs :=
  List.forall₂_same.2 fun _ _ => Or.inl rfl

/-- What holds no line break and begins the new text begins the old one. -/
theorem prefix_of_softened {cs cs' v : List Char} (h : List.Forall₂ Softened cs cs') (hv : '\n' ∉ v)
    (hbegins : v <+: cs') : v <+: cs := by
  induction h generalizing v with
  | nil => exact hbegins
  | @cons c c' cs cs' hc _ ih =>
      cases v with
      | nil => exact List.nil_prefix
      | cons d v =>
          obtain ⟨rfl, hrest⟩ := List.cons_prefix_cons.1 hbegins
          obtain ⟨hd, hv⟩ := not_or.1 (mt List.mem_cons.2 hv)
          have hsame : d = c := hc.resolve_right fun hbreak => hd hbreak.2.symm
          exact List.cons_prefix_cons.2 ⟨hsame, ih hv hrest⟩

theorem confined_of_softened (w : List Char) {after after' : List Char}
    (h : List.Forall₂ Softened after after') : Confined w after after' := by
  intro v hv hbegins
  exact prefix_of_softened (List.rel_append (softened_refl w) h) (hv.not_mem (Or.inr rfl)) hbegins

/-- A semicolon is written in one way. -/
theorem isLexeme_semicolon {cs w : List Char} {kind : TokenKind} (h : IsLexeme cs kind w)
    (hkind : kind = .semicolon) : w = [';'] := by
  cases h with
  | word _ table =>
      cases table with
      | reserved entry =>
          have hkinds : ∀ entry ∈ keywordEntries, entry.2 ≠ .semicolon := by decide
          exact absurd hkind (hkinds _ entry)
      | identifier => nomatch hkind
  | number => split at hkind <;> nomatch hkind
  | newline => nomatch hkind
  | operator _ _ _ table =>
      have hentries : ∀ entry ∈ operatorEntries, entry.2 = .semicolon → entry.1.toList = [';'] := by
        decide
      have htext := hentries _ table hkind
      rwa [String.toList_ofList] at htext
  | illegal => nomatch hkind

section

variable (exchanged : Token → Prop) [DecidablePred exchanged]

/-- The word that is written for a token: a line break if it is exchanged. -/
def softWord (token : Token) : TokenKind × String :=
  if exchanged token then (.newline, "\n") else token.word

/-- **One piece** of a respelled text, in front of a text that is respelled as well. -/
theorem Piece.Fits.respelled {piece : Piece} {before after after' : List Char}
    {words : List (TokenKind × String)} (hfits : piece.Fits before after)
    (hexchanged : exchanged piece.token → piece.token.kind = .semicolon)
    (hsoft : List.Forall₂ Softened after after') (hmade : MadeOf after' words) :
    List.Forall₂ Softened (piece.chars ++ after)
        (piece.gap ++ ((softWord exchanged piece.token).2.toList ++ after')) ∧
      MadeOf (piece.gap ++ ((softWord exchanged piece.token).2.toList ++ after'))
        (softWord exchanged piece.token :: words) := by
  rw [Piece.chars, List.append_assoc]
  by_cases hchosen : exchanged piece.token
  · have htext := isLexeme_semicolon hfits.lexeme (hexchanged hchosen)
    rw [softWord, if_pos hchosen, htext]
    constructor
    · exact List.rel_append (softened_refl _) (.cons (Or.inr ⟨rfl, rfl⟩) hsoft)
    · refine .cons (hfits.separated.before fun _ => Or.inr rfl) ⟨?_, ?_⟩ (.newline rfl) hmade
      · intro c hc
        obtain rfl : '\n' = c := Option.some.inj hc
        decide
      · intro hcomment
        exact absurd (List.cons_prefix_cons.1 hcomment).1 (by decide)
  · have hconfined := confined_of_softened piece.token.text.toList hsoft
    have hne := hfits.lexeme.ne_nil
    rw [softWord, if_neg hchosen]
    constructor
    · exact List.rel_append (softened_refl _) (List.rel_append (softened_refl _) hsoft)
    · refine .cons (hfits.separated.before ?_) (hfits.starts.before hne hconfined)
        (hfits.lexeme.before hconfined) hmade
      -- a comment in front of the token would end at the same line break
      obtain ⟨c, more, hcons⟩ := List.exists_cons_of_ne_nil hne
      rw [word, hcons]
      intro hends
      exact Or.inr (hends.resolve_left (List.cons_ne_nil c _))

/-- **Respelled texts** are made of the respelled words. -/
theorem madeOf_respellFrom (hexchanged : ∀ token, exchanged token → token.kind = .semicolon) (fuel : Nat)
    (before cs : List Char) (h : cs.length < fuel) :
    List.Forall₂ Softened cs
        (respellFrom (fun token => (softWord exchanged token).2) fuel cs (positionAfter before)) ∧
      MadeOf (respellFrom (fun token => (softWord exchanged token).2) fuel cs (positionAfter before))
        ((streamFrom fuel cs (positionAfter before)).tokens.map (softWord exchanged)) := by
  induction fuel generalizing before cs with
  | zero => exact absurd h (Nat.not_lt_zero _)
  | succ fuel ih =>
      rw [respellFrom, streamFrom]
      rcases readToken_cases before cs with ⟨hgap, hkind, -, -⟩ |
        ⟨piece, htoken, hchars, hne, hfits, hnext⟩
      · simp only [hkind, if_true]
        exact ⟨softened_refl cs, .nil hgap⟩
      · have hkind : (readToken cs (positionAfter before)).token.kind ≠ .endOfFile := by
          rw [htoken]
          exact hfits.notEnding
        have hshorter : (readToken cs (positionAfter before)).rest.length < fuel := by
          have hlength := congrArg List.length hchars
          have hpos := List.length_pos_iff.2 hne
          simp only [Piece.chars, List.length_append] at hlength
          omega
        have hgap : gapOf cs = piece.gap := by
          have hsplit := readToken_split cs _ hkind
          rw [htoken] at hsplit
          exact List.append_cancel_right (List.append_cancel_right (hsplit.symm.trans hchars))
        obtain ⟨hsoft, hmade⟩ := ih (before ++ piece.chars) _ hshorter
        rw [← hnext] at hsoft hmade
        have hstep := hfits.respelled exchanged (hexchanged _) hsoft hmade
        rw [← hchars] at hstep
        simp only [if_neg hkind, List.map_cons]
        rw [hgap, htoken, List.append_assoc]
        exact hstep

/-- The text with line breaks in place of the semicolons that are exchanged. -/
def soften (source : String) : String := respell (fun token => (softWord exchanged token).2) source

/-- **The tokens of the new text** are those of the source text, with line breaks in place of the
semicolons that are exchanged. -/
theorem map_word_soften (hexchanged : ∀ token, exchanged token → token.kind = .semicolon)
    (source : String) :
    (tokenStream (soften exchanged source)).tokens.map word =
      (tokenStream source).tokens.map (softWord exchanged) :=
  map_word_tokenStream (madeOf_respellFrom exchanged hexchanged _ [] _ (Nat.lt_succ_self _)).2

end

end Token

end ProcLang
